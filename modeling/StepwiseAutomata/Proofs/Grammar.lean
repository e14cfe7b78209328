import StepwiseAutomata.Session
import StepwiseAutomata.Proofs.Parsing

namespace StepwiseAutomata.Regex

/-- The characters that are no literals. -/
def reserved : List Char := ['(',')','|','*','+','?']

/-- The symbols of the grammar `Choice := Seq ('|' Seq)*`, `Seq := Post+`, `Post := Atom ('*' | '+' | '?')*`,
    `Atom := literal | '(' Choice ')'`. -/
inductive Nonterminal where
  | atom
  | post
  | seq
  | choice

/-- The word is derived from the symbol, with these trees: one for an atom and for what has quantifiers after it, those
    of the factors for a sequence, and those of the alternatives for a choice. -/
inductive Derives : Nonterminal → List Char → List Regex → Prop
  | literal {c : Char} : c ∉ reserved → Derives .atom [c] [.char c]
  | group {w : List Char} {alts : List Regex} :
      Derives .choice w alts → Derives .atom ('(' :: w ++ [')']) [choiceOf alts]
  | atom {w : List Char} {r : Regex} : Derives .atom w [r] → Derives .post w [r]
  | quant {w : List Char} {r : Regex} (q : Quantifier) :
      Derives .post w [r] → Derives .post (w ++ [q.sign]) [.quant q r]
  | factor {w : List Char} {r : Regex} : Derives .post w [r] → Derives .seq w [r]
  | next {v w : List Char} {rs : List Regex} {r : Regex} :
      Derives .seq v rs → Derives .post w [r] → Derives .seq (v ++ w) (rs ++ [r])
  | alternative {w : List Char} {rs : List Regex} : Derives .seq w rs → Derives .choice w [sequenceOf rs]
  | bar {v w : List Char} {alts rs : List Regex} :
      Derives .choice v alts → Derives .seq w rs → Derives .choice (v ++ '|' :: w) (alts ++ [sequenceOf rs])

/-- The text without its blanks. -/
def withoutBlanks (cs : List Char) : List Char := cs.filter fun c => !Text.isBlank c

/-! ### Characters -/

theorem not_blank_of_reserved {c : Char} (member : c ∈ reserved) : Text.isBlank c = false := by
  simp only [reserved,List.mem_cons,List.not_mem_nil,or_false] at member
  rcases member with rfl | rfl | rfl | rfl | rfl | rfl <;> rfl

theorem sign_mem_reserved (q : Quantifier) : q.sign ∈ reserved := by cases q <;> decide

namespace Token

/-- The characters that stand for a token. -/
def Denotes : Token → Char → Prop
  | opening,c => c = '('
  | closing,c => c = ')'
  | bar,c => c = '|'
  | quantifier q,c => c = q.sign
  | blank,c => Text.isBlank c = true
  | literal d,c => d = c ∧ c ∉ reserved ∧ Text.isBlank c = false

theorem denotes_ofChar (c : Char) : (ofChar c).Denotes c := by
  unfold ofChar
  split
  · rfl
  · rfl
  · rfl
  · rfl
  · rfl
  · rfl
  · by_cases blank : Text.isBlank c = true
    · rw [if_pos blank]
      exact blank
    · rw [if_neg blank]
      refine ⟨rfl,?_,Bool.not_eq_true _ |>.mp blank⟩
      simp_all [reserved]

theorem denotes_of_eq {c : Char} {token : Token} (same : ofChar c = token) : token.Denotes c := same ▸ denotes_ofChar c

/-- A character that is none of the signs is a literal unless it is a blank. -/
theorem ofChar_of_not_reserved {c : Char} (other : c ∉ reserved) :
    ofChar c = if Text.isBlank c then .blank else .literal c := by
  unfold ofChar
  split
  · exact absurd (by decide) other
  · exact absurd (by decide) other
  · exact absurd (by decide) other
  · exact absurd (by decide) other
  · exact absurd (by decide) other
  · exact absurd (by decide) other
  · rfl

theorem ofChar_literal {c : Char} (other : c ∉ reserved) (solid : Text.isBlank c = false) : ofChar c = .literal c := by
  rw [ofChar_of_not_reserved other,solid]
  rfl

theorem ofChar_blank {c : Char} (blank : Text.isBlank c = true) : ofChar c = .blank := by
  have other : c ∉ reserved := by
    intro member
    cases (not_blank_of_reserved member).symm.trans blank
  rw [ofChar_of_not_reserved other,if_pos blank]

@[simp] theorem ofChar_sign (q : Quantifier) : ofChar q.sign = .quantifier q := by cases q <;> rfl

end Token

theorem withoutBlanks_cons_of_blank {c : Char} (blank : Text.isBlank c = true) (cs : List Char) :
    withoutBlanks (c :: cs) = withoutBlanks cs := by
  simp [withoutBlanks,blank]

theorem withoutBlanks_cons_of_solid {c : Char} (solid : Text.isBlank c = false) (cs : List Char) :
    withoutBlanks (c :: cs) = c :: withoutBlanks cs := by
  simp [withoutBlanks,solid]

theorem not_blank_of_mem_withoutBlanks {c : Char} {cs : List Char} (member : c ∈ withoutBlanks cs) :
    Text.isBlank c = false := by
  simpa using (List.mem_filter.mp member).2

theorem withoutBlanks_eq_self {cs : List Char} (solid : ∀ c ∈ cs, Text.isBlank c = false) : withoutBlanks cs = cs := by
  refine List.filter_eq_self.mpr fun c member => ?_
  rw [solid c member]
  rfl

/-! ### Trees of derivations -/

theorem Derives.ne_nil {n : Nonterminal} {w : List Char} {rs : List Regex} (derives : Derives n w rs) : rs ≠ [] := by
  cases derives <;> simp

theorem Derives.flat {n : Nonterminal} {w : List Char} {rs : List Regex} (derives : Derives n w rs) :
    ∀ r ∈ rs, r.Flat := by
  induction derives with
  | literal _ => simpa using Flat.char _
  | group _ ih => simpa using flat_choiceOf ih
  | atom _ ih => exact ih
  | quant q _ ih =>
    have flat := ih _ (List.mem_singleton_self _)
    simpa using Flat.quant q flat
  | factor _ ih => exact ih
  | next _ _ ih ih' =>
    intro r member
    rcases List.mem_append.mp member with front | last
    · exact ih r front
    · exact ih' r last
  | alternative _ ih => simpa using flat_sequenceOf ih
  | bar _ _ ih ih' =>
    intro r member
    rcases List.mem_append.mp member with front | last
    · exact ih r front
    · rw [List.mem_singleton.mp last]
      exact flat_sequenceOf ih'

/-- A single alternative stands for itself. -/
theorem choiceOf_singleton {r : Regex} (flat : r.Flat) : choiceOf [r] = r := by
  cases flat with
  | @choice rs many _ _ =>
    match rs,many with
    | r :: s :: rs,_ => simp [choiceOf,alternatives,collapse]
  | _ => simp [choiceOf,alternatives,collapse]

/-- The last factor of a sequence can be taken off. -/
theorem Derives.seq_concat {w : List Char} {rs : List Regex} {r : Regex} (derives : Derives .seq w (rs ++ [r])) :
    ∃ v u, w = v ++ u ∧ Derives .post u [r] ∧ (rs = [] ∧ v = [] ∨ Derives .seq v rs) := by
  generalize same : rs ++ [r] = whole at derives
  cases derives with
  | @factor w s post =>
    obtain ⟨rfl,single⟩ := List.append_inj' (show rs ++ [r] = [] ++ [s] from same) rfl
    obtain rfl := (List.cons.inj single).1
    exact ⟨[],w,rfl,post,.inl ⟨rfl,rfl⟩⟩
  | @next v u ss s seq post =>
    obtain ⟨rfl,single⟩ := List.append_inj' same rfl
    obtain rfl := (List.cons.inj single).1
    exact ⟨v,u,rfl,post,.inr seq⟩

/-! ### What is read is derived -/

namespace Group

variable {g g' : Group} {u w : List Char} {r : Regex}

/-- The word is what has been read of the group. -/
def Covers (g : Group) (u : List Char) : Prop :=
  ∃ v w, u = v ++ w ∧
    (g.alternatives = [] ∧ v = [] ∨ ∃ v', v = v' ++ ['|'] ∧ Derives .choice v' g.alternatives.reverse) ∧
    (g.factors = [] ∧ w = [] ∨ Derives .seq w g.factors.reverse)

theorem covers_nil : Covers {} [] := ⟨[],[],rfl,.inl ⟨rfl,rfl⟩,.inl ⟨rfl,rfl⟩⟩

theorem Covers.push (covers : g.Covers u) (post : Derives .post w [r]) : (g.push r).Covers (u ++ w) := by
  obtain ⟨before,now,rfl,alternatives,factors⟩ := covers
  refine ⟨before,now ++ w,List.append_assoc _ _ _,alternatives,.inr ?_⟩
  rw [Group.push,List.reverse_cons]
  rcases factors with ⟨none,rfl⟩ | some
  · rw [none]
    exact .factor post
  · exact some.next post

theorem Covers.quantify? (covers : g.Covers u) {q : Quantifier} (made : g.quantify? q = some g') :
    g'.Covers (u ++ [q.sign]) := by
  obtain ⟨before,now,rfl,alternatives,derived⟩ := covers
  unfold Group.quantify? at made
  split at made
  · cases made
  · rename_i r rs factors
    cases made
    rw [factors,List.reverse_cons] at derived
    obtain ⟨v,x,rfl,post,rest⟩ := (derived.resolve_left fun none => nomatch none.1).seq_concat
    refine ⟨before,v ++ (x ++ [q.sign]),by simp,alternatives,.inr ?_⟩
    show Derives .seq _ (Regex.quant q r :: rs).reverse
    rw [List.reverse_cons]
    rcases rest with ⟨none,rfl⟩ | some
    · rw [none]
      exact .factor (.quant q post)
    · exact some.next (.quant q post)

/-- With the alternative being read, the word is a choice. -/
theorem Covers.choice (covers : g.Covers u) (some : g.factors ≠ []) :
    Derives .choice u (g.alternatives.reverse ++ [sequenceOf g.factors.reverse]) := by
  obtain ⟨before,now,rfl,alternatives,factors⟩ := covers
  have seq := factors.resolve_left fun none => some none.1
  rcases alternatives with ⟨none,rfl⟩ | ⟨v,rfl,derives⟩
  · rw [none]
    exact .alternative seq
  · rw [List.append_assoc]
    exact derives.bar seq

theorem Covers.split? (covers : g.Covers u) (made : g.split? = some g') : g'.Covers (u ++ ['|']) := by
  unfold Group.split? at made
  split at made
  · cases made
  · rename_i some
    cases made
    refine ⟨u ++ ['|'],[],(List.append_nil _).symm,.inr ⟨u,rfl,?_⟩,.inl ⟨rfl,rfl⟩⟩
    rw [List.reverse_cons]
    exact covers.choice some

/-- The alternatives of the group, with the one being read. -/
theorem finish_eq (flat : (sequenceOf g.factors.reverse).Flat) (some : g.factors ≠ []) (position : Nat) :
    g.finish position = .ok (.some (choiceOf (g.alternatives.reverse ++ [sequenceOf g.factors.reverse]))) := by
  unfold finish
  split
  · exact absurd ‹_› some
  · rename_i none _
    rw [none]
    exact congrArg (fun r => Except.ok (Option.some r)) (choiceOf_singleton flat).symm
  · exact absurd ‹_› some
  · rw [List.reverse_cons]

theorem Covers.finish (covers : g.Covers u) {position : Nat} (made : g.finish position = .ok (some r)) :
    ∃ alts, Derives .choice u alts ∧ r = choiceOf alts := by
  have some : g.factors ≠ [] := by
    intro none
    unfold Group.finish at made
    rw [none] at made
    cases alternatives : g.alternatives <;> rw [alternatives] at made <;> cases made
  have derives := covers.choice some
  rw [finish_eq (derives.flat _ (by simp)) some] at made
  cases made
  exact ⟨_,derives,rfl⟩

end Group

/-- The word is what has been read of the groups around the present one. -/
inductive Encloses : List (Group × Nat) → List Char → Prop
  | nil : Encloses [] []
  | cons {outer : List (Group × Nat)} {g : Group} {u v : List Char} (opened : Nat) :
      Encloses outer u → g.Covers v → Encloses ((g,opened) :: outer) (u ++ v ++ ['('])

/-- What has been read goes on by the character, unless that is a blank. -/
theorem Takes.covers {position : Nat} {outer outer' : List (Group × Nat)} {g g' : Group} {c : Char} {u v : List Char}
    (takes : Takes position c outer g outer' g') (encloses : Encloses outer u) (covers : g.Covers v) :
    ∃ u' v', Encloses outer' u' ∧ g'.Covers v' ∧ u' ++ v' = u ++ v ++ withoutBlanks [c] := by
  cases takes with
  | opening token =>
    obtain rfl := Token.denotes_of_eq token
    exact ⟨_,[],.cons position encloses covers,Group.covers_nil,List.append_nil _⟩
  | closing token finished =>
    obtain rfl := Token.denotes_of_eq token
    cases encloses with
    | @cons outer around u x opened encloses outside =>
      obtain ⟨alts,choice,rfl⟩ := covers.finish finished
      refine ⟨u,x ++ ('(' :: v ++ [')']),encloses,outside.push (.atom (.group choice)),?_⟩
      rw [withoutBlanks_cons_of_solid rfl]
      simp [withoutBlanks]
  | bar token split =>
    obtain rfl := Token.denotes_of_eq token
    exact ⟨u,v ++ ['|'],encloses,covers.split? split,(List.append_assoc u v _).symm⟩
  | quantifier q token quantified =>
    obtain rfl := Token.denotes_of_eq token
    refine ⟨u,v ++ [q.sign],encloses,covers.quantify? quantified,?_⟩
    rw [withoutBlanks_cons_of_solid (not_blank_of_reserved (sign_mem_reserved q)),List.append_assoc]
    rfl
  | blank token =>
    refine ⟨u,v,encloses,covers,?_⟩
    rw [withoutBlanks_cons_of_blank (Token.denotes_of_eq token)]
    exact (List.append_nil _).symm
  | literal d token =>
    obtain ⟨rfl,other,solid⟩ := Token.denotes_of_eq token
    refine ⟨u,v ++ [d],encloses,covers.push (.atom (.literal other)),?_⟩
    rw [withoutBlanks_cons_of_solid solid,List.append_assoc]
    rfl

theorem read_sound {text u v : List Char} {position : Nat} {outer : List (Group × Nat)} {g : Group} {r : Regex}
    (encloses : Encloses outer u) (covers : g.Covers v) (made : read position outer g text = .ok (some r)) :
    ∃ alts, Derives .choice (u ++ v ++ withoutBlanks text) alts ∧ r = choiceOf alts := by
  induction text generalizing position outer g u v with
  | nil =>
    obtain ⟨rfl,finished⟩ := read_nil_ok made
    cases encloses
    have whole : ([] : List Char) ++ v ++ withoutBlanks [] = v := List.append_nil _
    rw [whole]
    exact covers.finish finished
  | cons c cs ih =>
    obtain ⟨outer',g',takes,made⟩ := exists_takes made
    obtain ⟨u',v',encloses,covers,further⟩ := takes.covers encloses covers
    have derived := ih encloses covers made
    have split : withoutBlanks (c :: cs) = withoutBlanks [c] ++ withoutBlanks cs := List.filter_append [c] cs
    rwa [further,List.append_assoc,← split] at derived

namespace Group

variable {g : Group}

/-- Only a group in which nothing was read has no content. -/
theorem eq_empty {position : Nat} (made : g.finish position = .ok none) : g = {} := by
  obtain ⟨alternatives,factors⟩ := g
  unfold finish at made
  split at made
  · rename_i none none'
    obtain rfl : alternatives = [] := none
    obtain rfl : factors = [] := none'
    rfl
  · cases made
  · cases made
  · cases made

theorem push_ne_empty (g : Group) (r : Regex) : g.push r ≠ {} :=
  fun same => List.cons_ne_nil _ _ (congrArg Group.factors same)

theorem split?_ne_empty (g : Group) : g.split? ≠ some {} := by
  unfold split?
  split <;> simp

theorem quantify?_ne_empty (g : Group) (q : Quantifier) : g.quantify? q ≠ some {} := by
  unfold quantify?
  split <;> simp

end Group

/-- A group in which nothing was read has just been opened, or goes on with a blank. -/
theorem Takes.of_empty {position : Nat} {outer outer' : List (Group × Nat)} {g : Group} {c : Char}
    (takes : Takes position c outer g outer' {}) : c = '(' ∧ outer' = (g,position) :: outer ∨
      Text.isBlank c = true ∧ outer' = outer ∧ g = {} := by
  generalize none : ({} : Group) = g' at takes
  cases takes with
  | opening token => exact .inl ⟨Token.denotes_of_eq token,rfl⟩
  | blank token => exact .inr ⟨Token.denotes_of_eq token,rfl,rfl⟩
  | closing | literal => exact absurd none.symm (Group.push_ne_empty _ _)
  | bar _ split => exact absurd (none ▸ split) (Group.split?_ne_empty _)
  | quantifier _ _ quantified => exact absurd (none ▸ quantified) (Group.quantify?_ne_empty _ _)

/-- Nothing is read of blanks only. -/
theorem read_eq_none {text : List Char} {position : Nat} {outer : List (Group × Nat)} {g : Group}
    (made : read position outer g text = .ok none) : g = {} ∧ outer = [] ∧ ∀ c ∈ text, Text.isBlank c = true := by
  induction text generalizing position outer g with
  | nil =>
    obtain ⟨outermost,finished⟩ := read_nil_ok made
    exact ⟨Group.eq_empty finished,outermost,nofun⟩
  | cons c cs ih =>
    obtain ⟨outer',g',takes,made⟩ := exists_takes made
    obtain ⟨rfl,rfl,blanks⟩ := ih made
    rcases takes.of_empty with ⟨_,other⟩ | ⟨blank,rfl,rfl⟩
    · cases other
    · exact ⟨rfl,rfl,List.forall_mem_cons.mpr ⟨blank,blanks⟩⟩

/-! ### What is derived is read -/

/-- Only parentheses count when the closing one is looked for. -/
theorem closes_cons {c : Char} (first : c ≠ '(') (second : c ≠ ')') (depth : Nat) (cs : List Char) :
    closes depth (c :: cs) = closes depth cs := by
  have opens : Token.ofChar c ≠ .opening := fun token => first (Token.denotes_of_eq token)
  have ends : Token.ofChar c ≠ .closing := fun token => second (Token.denotes_of_eq token)
  rw [closes.eq_def]
  cases token : Token.ofChar c with
  | opening => exact absurd token opens
  | closing => exact absurd token ends
  | _ => simp only [token]

theorem sign_ne (q : Quantifier) : q.sign ≠ '(' ∧ q.sign ≠ ')' := by cases q <;> decide

/-- Derived words have their parentheses in pairs. -/
theorem Derives.closes_append {n : Nonterminal} {w : List Char} {rs : List Regex} (derives : Derives n w rs)
    (depth : Nat) (cs : List Char) : closes depth (w ++ cs) = closes depth cs := by
  induction derives generalizing depth cs with
  | @literal c other =>
    refine closes_cons ?_ ?_ depth cs
    · rintro rfl
      exact other (by decide)
    · rintro rfl
      exact other (by decide)
  | @group w alts _ ih =>
    have inside : closes depth ('(' :: w ++ [')'] ++ cs) = closes (depth + 1) (w ++ ')' :: cs) := by
      simp [closes,Token.ofChar]
    rw [inside,ih]
    simp [closes,Token.ofChar]
  | atom _ ih => exact ih depth cs
  | quant q _ ih =>
    rw [List.append_assoc,ih]
    exact closes_cons (sign_ne q).1 (sign_ne q).2 depth cs
  | factor _ ih => exact ih depth cs
  | next _ _ ih ih' => rw [List.append_assoc,ih,ih']
  | alternative _ ih => exact ih depth cs
  | bar _ _ ih ih' =>
    rw [List.append_assoc,ih,List.cons_append,closes_cons (by decide) (by decide),ih']

/-- Reading the word leads from one group to the other. -/
def Advances (w : List Char) (g g' : Group) : Prop :=
  ∀ position outer cs, read position outer g (w ++ cs) = read (position + w.length) outer g' cs

theorem Advances.append {v w : List Char} {g g' g'' : Group} (first : Advances v g g') (second : Advances w g' g'') :
    Advances (v ++ w) g g'' := by
  intro position outer cs
  rw [List.append_assoc,first,second,List.length_append,Nat.add_assoc]

theorem Takes.advances {g g' : Group} {c : Char} (takes : ∀ position outer, Takes position c outer g outer g')
    (solid : Token.ofChar c ≠ .opening) : Advances [c] g g' :=
  fun position outer _ => (takes position outer).read fun token => absurd token solid

theorem advances_literal {c : Char} (other : c ∉ reserved) (solid : Text.isBlank c = false) (g : Group) :
    Advances [c] g (g.push (.char c)) := by
  have token := Token.ofChar_literal other solid
  exact Takes.advances (fun _ _ => .literal c token) (by simp [token])

theorem advances_sign (q : Quantifier) (alts : List Regex) (r : Regex) (rs : List Regex) :
    Advances [q.sign] ⟨alts,r :: rs⟩ ⟨alts,.quant q r :: rs⟩ :=
  Takes.advances (fun _ _ => .quantifier q (Token.ofChar_sign q) rfl) (by simp)

theorem advances_bar {g : Group} (some : g.factors ≠ []) :
    Advances ['|'] g ⟨sequenceOf g.factors.reverse :: g.alternatives,[]⟩ := by
  have split : g.split? = .some ⟨sequenceOf g.factors.reverse :: g.alternatives,[]⟩ := by
    unfold Group.split?
    split
    · exact absurd ‹_› some
    · rfl
  exact Takes.advances (fun _ _ => .bar rfl split) (by decide)

/-- A word between parentheses that is read as a whole group is read as a factor. -/
theorem advances_group {w : List Char} {g' : Group} (inside : Advances w {} g')
    (closing : ∀ cs, closes 0 (w ++ ')' :: cs) = true)
    {r : Regex} (finish : ∀ position, g'.finish position = .ok (some r)) (g : Group) :
    Advances ('(' :: w ++ [')']) g (g.push r) := by
  intro position outer cs
  have shift : '(' :: w ++ [')'] ++ cs = '(' :: (w ++ ')' :: cs) := by simp
  have length : ('(' :: w ++ [')']).length = 1 + w.length + 1 := by simp; omega
  rw [shift,Takes.read (.opening rfl) fun _ => closing cs,inside,
    Takes.read (.closing rfl (finish _)) fun token => absurd token (by decide),length]
  simp only [Nat.add_assoc]

/-- What reading a derived word does: the trees are put before the factors, and those of a choice before the
    alternatives, the last of them still in factors. -/
def Nonterminal.Reads : Nonterminal → List Char → List Regex → Prop
  | .choice,w,rs => ∀ alts, ∃ g : Group, Advances w ⟨alts,[]⟩ g ∧ g.factors ≠ [] ∧
      g.alternatives.reverse ++ [sequenceOf g.factors.reverse] = alts.reverse ++ rs
  | _,w,rs => ∀ g : Group, Advances w g { g with factors := rs.reverse ++ g.factors }

theorem Derives.reads {n : Nonterminal} {w : List Char} {rs : List Regex} (derives : Derives n w rs)
    (solid : ∀ c ∈ w, Text.isBlank c = false) : n.Reads w rs := by
  induction derives with
  | @literal c other => exact advances_literal other (solid c (List.mem_singleton_self c))
  | @group w alts choice ih =>
    intro g
    obtain ⟨g',inside,some,same⟩ := ih (fun c member => solid c (by simp [member])) []
    have flat : (sequenceOf g'.factors.reverse).Flat :=
      choice.flat _ (by rw [← List.nil_append alts,← List.reverse_nil,← same]; simp)
    refine advances_group inside (fun cs => ?_) (fun position => ?_) g
    · rw [choice.closes_append]
      rfl
    · rw [Group.finish_eq flat some,same]
      rfl
  | atom _ ih => exact ih solid
  | quant q _ ih =>
    intro g
    exact (ih (fun c member => solid c (by simp [member])) g).append (advances_sign q _ _ _)
  | factor _ ih => exact ih solid
  | next _ _ ih ih' =>
    intro g
    have first := ih (fun c member => solid c (by simp [member])) g
    have second := ih' (fun c member => solid c (by simp [member]))
    have both := first.append (second _)
    simpa using both
  | @alternative w rs seq ih =>
    intro alts
    refine ⟨_,ih solid _,?_,?_⟩
    · simpa using seq.ne_nil
    · simp
  | @bar v w alts rs _ seq ih ih' =>
    intro before
    obtain ⟨g,first,some,same⟩ := ih (fun c member => solid c (by simp [member])) before
    have second := ih' (fun c member => solid c (by simp [member]))
    have whole := first.append ((advances_bar some).append (second _))
    refine ⟨_,whole,?_,?_⟩
    · simpa using seq.ne_nil
    · show (sequenceOf g.factors.reverse :: g.alternatives).reverse ++ [sequenceOf (rs.reverse ++ []).reverse] = _
      rw [List.reverse_cons,same,List.append_nil,List.reverse_reverse,List.append_assoc]

/-! ### Blanks -/

theorem closes_withoutBlanks (depth : Nat) (cs : List Char) : closes depth (withoutBlanks cs) = closes depth cs := by
  induction cs generalizing depth with
  | nil => rfl
  | cons c cs ih =>
    by_cases blank : Text.isBlank c = true
    · rw [withoutBlanks_cons_of_blank blank,ih]
      refine (closes_cons ?_ ?_ depth cs).symm
      · rintro rfl
        cases blank
      · rintro rfl
        cases blank
    · rw [withoutBlanks_cons_of_solid (Bool.not_eq_true _ |>.mp blank),closes.eq_def,closes.eq_def depth (c :: cs)]
      simp only [ih]

/-- Positions show in errors only. -/
theorem Group.finish_ok {g : Group} {position : Nat} {r : Option Regex} (made : g.finish position = .ok r)
    (position' : Nat) : g.finish position' = .ok r := by
  unfold finish at made ⊢
  split at made <;> first | exact made | cases made

theorem Group.toOption_finish (g : Group) (position position' : Nat) :
    (g.finish position).toOption = (g.finish position').toOption := by
  unfold finish
  split <;> rfl

theorem Group.finish_error_of {g : Group} {position : Nat}
    (wrong : g.finish position = .error (.emptyChoiceOperand position)) (position' : Nat) :
    g.finish position' = .error (.emptyChoiceOperand position') := by
  unfold finish at wrong ⊢
  split at wrong <;> first | rfl | cases wrong

section
variable {position : Nat} {outer outer' outer'' : List (Group × Nat)} {g g' : Group} {c : Char} {cs cs' : List Char}
  {e : ParseError}

/-- A character leads to the same groups wherever they have been opened. -/
theorem Takes.elsewhere (takes : Takes position c outer g outer' g') (position' : Nat)
    (same : outer.map Prod.fst = outer''.map Prod.fst) :
    ∃ after, Takes position' c outer'' g after g' ∧ outer'.map Prod.fst = after.map Prod.fst := by
  cases takes with
  | opening token => exact ⟨_,.opening token,congrArg (g :: ·) same⟩
  | closing token finished =>
    obtain ⟨⟨around,opened⟩,outer'',rfl,rfl,others⟩ := List.map_eq_cons_iff.mp same.symm
    exact ⟨outer'',.closing token (Group.finish_ok finished position'),others.symm⟩
  | bar token split => exact ⟨outer'',.bar token split,same⟩
  | quantifier q token quantified => exact ⟨outer'',.quantifier q token quantified,same⟩
  | blank token => exact ⟨outer'',.blank token,same⟩
  | literal d token => exact ⟨outer'',.literal d token,same⟩

/-- A character is a fault wherever the groups have been opened, and whatever blanks come after it. -/
theorem Fault.elsewhere (fault : Fault position outer g (c :: cs) e) (position' : Nat)
    (same : outer.map Prod.fst = outer''.map Prod.fst) (closed : closes 0 cs' = closes 0 cs) :
    ∃ e', Fault position' outer'' g (c :: cs') e' := by
  cases fault with
  | operator q token none => exact ⟨_,.operator q token none⟩
  | bar token none => exact ⟨_,.bar token none⟩
  | closing token wrong =>
    obtain ⟨⟨around,opened⟩,outer'',rfl,rfl,_⟩ := List.map_eq_cons_iff.mp same.symm
    exact ⟨_,.closing token (Group.finish_error_of wrong position')⟩
  | stray token =>
    obtain rfl := List.map_eq_nil_iff.mp same.symm
    exact ⟨_,.stray token⟩
  | unclosed token unclosed => exact ⟨_,.unclosed token (closed.trans unclosed)⟩
  | empty token nothing =>
    obtain ⟨⟨around,opened⟩,outer'',rfl,rfl,_⟩ := List.map_eq_cons_iff.mp same.symm
    exact ⟨_,.empty token (Group.finish_ok nothing position')⟩

end

/-- Whether a text is read, and as what, does not hang on its blanks. -/
theorem toOption_read_withoutBlanks {cs : List Char} {position position' : Nat} {outer outer' : List (Group × Nat)}
    {g : Group} (same : outer.map Prod.fst = outer'.map Prod.fst) :
    (read position outer g cs).toOption = (read position' outer' g (withoutBlanks cs)).toOption := by
  induction cs generalizing position position' outer outer' g with
  | nil =>
    show (read position outer g []).toOption = (read position' outer' g []).toOption
    cases outer with
    | nil =>
      obtain rfl := List.map_eq_nil_iff.mp same.symm
      exact g.toOption_finish position position'
    | cons x outer =>
      obtain ⟨y,outer',rfl,_⟩ := List.map_eq_cons_iff.mp same.symm
      rfl
  | cons c cs ih =>
    by_cases blank : Text.isBlank c = true
    · have token := Token.ofChar_blank blank
      rw [withoutBlanks_cons_of_blank blank,Takes.read (.blank token) (by simp [token])]
      exact ih same
    · rw [withoutBlanks_cons_of_solid (Bool.not_eq_true _ |>.mp blank)]
      have closed := closes_withoutBlanks 0 cs
      rcases takes_or_fault position outer g c cs with ⟨after,g',takes,own⟩ | ⟨e,fault⟩
      · obtain ⟨after',takes',same⟩ := takes.elsewhere position' same
        rw [takes.read own,takes'.read fun token => closed.trans (own token)]
        exact ih same
      · obtain ⟨e',fault'⟩ := fault.elsewhere position' same closed
        rw [fault.read_eq,fault'.read_eq]
        rfl

/-! ### Parsing -/

theorem parse_eq_ok_iff {text : String} {answer : Option Regex} :
    parse text = .ok answer ↔ read 0 [] {} (withoutBlanks text.toList) = .ok answer := by
  have same : (parse text).toOption = (read 0 [] {} (withoutBlanks text.toList)).toOption :=
    toOption_read_withoutBlanks rfl
  have decided (x : Except ParseError (Option Regex)) : x = .ok answer ↔ x.toOption = some answer := by
    cases x with
    | error e => exact ⟨nofun,nofun⟩
    | ok r => exact ⟨fun same => by cases same; rfl,fun same => by cases same; rfl⟩
  rw [decided,same,← decided]

/-- A derivation is found, and its tree is the answer. -/
theorem parse_of_derives {text : String} {alts : List Regex} (derives : Derives .choice (withoutBlanks text.toList) alts) :
    parse text = .ok (some (choiceOf alts)) := by
  obtain ⟨g,advances,some,same⟩ := derives.reads (fun c member => not_blank_of_mem_withoutBlanks member) []
  have same : g.alternatives.reverse ++ [sequenceOf g.factors.reverse] = alts := same
  have flat : (sequenceOf g.factors.reverse).Flat := derives.flat _ (by rw [← same]; simp)
  have whole := advances 0 [] []
  rw [List.append_nil] at whole
  rw [parse_eq_ok_iff,whole]
  show g.finish _ = _
  rw [Group.finish_eq flat some,same]

/-- What is read has a derivation. -/
theorem derives_of_parse {text : String} {r : Regex} (parsed : parse text = .ok (some r)) :
    ∃ alts, Derives .choice (withoutBlanks text.toList) alts ∧ r = choiceOf alts :=
  read_sound .nil Group.covers_nil parsed

theorem parse_eq_ok_none {text : String} : parse text = .ok none ↔ text.toList.all Text.isBlank = true := by
  rw [List.all_eq_true]
  constructor
  · intro parsed
    exact (read_eq_none parsed).2.2
  · intro blank
    have empty : withoutBlanks text.toList = [] := by
      refine List.filter_eq_nil_iff.mpr fun c member => ?_
      rw [blank c member]
      decide
    rw [parse_eq_ok_iff,empty]
    rfl

/-- Parsing decides the grammar. A text of blanks has no content; a text that is derived, once its blanks are left out,
    is read as the tree of the derivation, which is therefore the only one; and the other texts are exactly those that
    are refused, as no expression. -/
theorem parse_exact (text : String) :
    (parse text = .ok none ↔ text.toList.all Text.isBlank = true) ∧
    (∀ r, parse text = .ok (some r) ↔ ∃ alts, Derives .choice (withoutBlanks text.toList) alts ∧ r = choiceOf alts) ∧
    ((∃ e, parse text = .error e ∧ ∀ settings, Session.ofRegex text settings = .error (.invalidRegex e)) ↔
      ¬text.toList.all Text.isBlank = true ∧ ¬∃ alts, Derives .choice (withoutBlanks text.toList) alts) := by
  refine ⟨parse_eq_ok_none,fun r => ⟨derives_of_parse,?_⟩,?_,?_⟩
  · rintro ⟨alts,derives,rfl⟩
    exact parse_of_derives derives
  · rintro ⟨e,refused,_⟩
    refine ⟨fun blank => ?_,?_⟩
    · cases refused.symm.trans (parse_eq_ok_none.mpr blank)
    · rintro ⟨alts,derives⟩
      cases refused.symm.trans (parse_of_derives derives)
  · rintro ⟨content,underived⟩
    cases parsed : parse text with
    | ok answer =>
      cases answer with
      | none => exact absurd (parse_eq_ok_none.mp parsed) content
      | some r =>
        obtain ⟨alts,derives,_⟩ := derives_of_parse parsed
        exact absurd ⟨alts,derives⟩ underived
    | error e =>
      refine ⟨e,rfl,fun settings => ?_⟩
      rw [Session.ofRegex,parsed]

example : parse "a | (b c)*?" =
    .ok (some (.choice [.char 'a',.quant .option (.quant .star (.seq [.char 'b',.char 'c']))])) := rfl

end StepwiseAutomata.Regex
