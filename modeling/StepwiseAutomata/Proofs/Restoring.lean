import StepwiseAutomata.Proofs.RoundTrip

namespace StepwiseAutomata.Snapshot

/-- The states and the transitions have ids of their own, whatever is referred to is listed, and there is a regular
    expression on every transition. -/
structure Orderly (s : Snapshot) : Prop where
  states : s.stateIds.Nodup
  start : s.start ∈ s.stateIds
  transitions : (s.transitions.map Entry.id).Nodup
  source : ∀ x ∈ s.transitions, x.source ∈ s.stateIds
  target : ∀ x ∈ s.transitions, x.target ∈ s.stateIds
  label : ∀ x ∈ s.transitions, ∃ r, Regex.parse x.label = .ok (some r)

/-- The first thing wrong with an entry, where the ids in `seen` are taken. -/
inductive Entry.Fault (states seen : List Nat) (x : Entry) : Error → Prop
  | duplicate (old : x.id ∈ seen) : Fault states seen x (.snapshot (.duplicateTransition x.id))
  | source (new : x.id ∉ seen) (missing : x.source ∉ states) :
      Fault states seen x (.snapshot (.missingState x.id x.source))
  | target (new : x.id ∉ seen) (source : x.source ∈ states) (missing : x.target ∉ states) :
      Fault states seen x (.snapshot (.missingState x.id x.target))
  | unparsable (new : x.id ∉ seen) (source : x.source ∈ states) (target : x.target ∈ states) {e : Regex.ParseError}
      (parsed : Regex.parse x.label = .error e) : Fault states seen x (.invalidRegex e)
  | blank (new : x.id ∉ seen) (source : x.source ∈ states) (target : x.target ∈ states)
      (parsed : Regex.parse x.label = .ok none) : Fault states seen x (.snapshot (.emptyLabel x.id))

/-- The first thing wrong with a picture. A fault of an entry counts when the picture is in order up to there. -/
inductive Fault (s : Snapshot) : Error → Prop
  | state {before after : List Nat} {id : Nat} (listed : s.stateIds = before ++ id :: after) (unique : before.Nodup)
      (old : id ∈ before) : Fault s (.snapshot (.duplicateState id))
  | start (unique : s.stateIds.Nodup) (missing : s.start ∉ s.stateIds) : Fault s (.snapshot (.unlistedStart s.start))
  | transition {before after : List Entry} {x : Entry} {e : Error} (listed : s.transitions = before ++ x :: after)
      (orderly : { s with transitions := before }.Orderly) (fault : x.Fault s.stateIds (before.map Entry.id) e) :
      Fault s e

/-- A consistent automaton with just the start state, the states, their flags and the transitions of the picture. What
    leaves and what enters a state is in the order of the picture. No counter is greater than the picture and the ids
    in it require. -/
structure Depicts (s : Snapshot) (a : Automaton) : Prop where
  consistent : a.Consistent
  start : a.start = s.start
  states : a.states.Perm s.states
  transitions : ∃ ts, List.Forall₂ Entry.Denotes s.transitions ts ∧ a.transitions.Perm ts ∧
    (∀ i, a.outgoing i = ts.filter fun t : Transition => t.source == i) ∧
    ∀ i, a.ingoing i = ts.filter fun t : Transition => t.target == i
  nextState : ∀ n, a.counters.nextState ≤ n ↔ s.nextState.getD 0 ≤ n ∧ ∀ r ∈ s.states, r.id < n
  nextTransition : ∀ n, a.counters.nextTransition ≤ n ↔ s.nextTransition.getD 0 ≤ n ∧ ∀ x ∈ s.transitions, x.id < n

section
variable {states seen : List Nat} {x : Entry} {xs : List Entry} {e : Error}

/-- Only membership among the taken ids matters. -/
theorem Entry.Fault.congr {seen' : List Nat} (same : ∀ i, i ∈ seen ↔ i ∈ seen') :
    x.Fault states seen e ↔ x.Fault states seen' e := by
  have imp {seen seen' : List Nat} (same : ∀ i, i ∈ seen ↔ i ∈ seen') (fault : x.Fault states seen e) :
      x.Fault states seen' e := by
    cases fault with
    | duplicate old => exact .duplicate ((same x.id).mp old)
    | source new missing => exact .source (mt (same x.id).mpr new) missing
    | target new source missing => exact .target (mt (same x.id).mpr new) source missing
    | unparsable new source target parsed => exact .unparsable (mt (same x.id).mpr new) source target parsed
    | blank new source target parsed => exact .blank (mt (same x.id).mpr new) source target parsed
  exact ⟨imp same,imp fun i => (same i).symm⟩

theorem readEntry_eq_error : readEntry states seen x = .error e ↔ x.Fault states seen e := by
  constructor
  · intro read
    unfold readEntry readLabel at read
    split at read
    · rename_i old
      cases read
      exact .duplicate old
    · rename_i new
      split at read
      · rename_i missing
        cases read
        exact .source new missing
      · rename_i source
        split at read
        · rename_i missing
          cases read
          exact .target new (not_not.mp source) missing
        · rename_i target
          split at read
          · rename_i parsed
            cases read
            exact .unparsable new (not_not.mp source) (not_not.mp target) parsed
          · rename_i parsed
            cases read
            exact .blank new (not_not.mp source) (not_not.mp target) parsed
          · cases read
  · intro fault
    unfold readEntry readLabel
    cases fault with
    | duplicate old => rw [if_pos old]
    | source new missing => rw [if_neg new,if_pos missing]
    | target new source missing => rw [if_neg new,if_neg (not_not.mpr source),if_pos missing]
    | unparsable new source target parsed =>
      rw [if_neg new,if_neg (not_not.mpr source),if_neg (not_not.mpr target),parsed]
      rfl
    | blank new source target parsed =>
      rw [if_neg new,if_neg (not_not.mpr source),if_neg (not_not.mpr target),parsed]
      rfl

private theorem map_eq_error {α β : Type} {result : Except Error α} {f : α → β} :
    result.map f = .error e ↔ result = .error e := by
  cases result with
  | error e' => exact ⟨fun same => congrArg Except.error (Except.error.inj same),
      fun same => congrArg Except.error (Except.error.inj same)⟩
  | ok a => exact ⟨nofun,nofun⟩

/-- The entries before the first that is wrong are read. -/
theorem readEntries_eq_error : readEntries states seen xs = .error e ↔ ∃ before x after, xs = before ++ x :: after ∧
    (∃ ts, readEntries states seen before = .ok ts) ∧ x.Fault states (before.map Entry.id ++ seen) e := by
  induction xs generalizing seen with
  | nil =>
    refine ⟨nofun,?_⟩
    rintro ⟨before,x,after,none,_⟩
    exact absurd none.symm (List.append_ne_nil_of_right_ne_nil before (List.cons_ne_nil x after))
  | cons y xs ih =>
    have moved (before : List Entry) (x : Entry) : x.Fault states (before.map Entry.id ++ y.id :: seen) e ↔
        x.Fault states ((y :: before).map Entry.id ++ seen) e :=
      Entry.Fault.congr fun i => by simp [or_left_comm]
    rw [readEntries]
    cases first : readEntry states seen y with
    | error e' =>
      constructor
      · intro read
        cases read
        exact ⟨[],y,xs,rfl,⟨[],rfl⟩,readEntry_eq_error.mp first⟩
      · rintro ⟨before,x,after,split,⟨ts,read⟩,fault⟩
        rcases List.cons_eq_append_iff.mp split with ⟨rfl,same⟩ | ⟨rest,rfl,_⟩
        · obtain ⟨rfl,rfl⟩ := List.cons.inj same
          exact congrArg Except.error (Except.error.inj (first.symm.trans (readEntry_eq_error.mpr fault)))
        · rw [readEntries,first] at read
          cases read
    | ok t =>
      refine map_eq_error.trans (ih.trans ⟨?_,?_⟩)
      · rintro ⟨before,x,after,rfl,⟨ts,read⟩,fault⟩
        refine ⟨y :: before,x,after,rfl,⟨t :: ts,?_⟩,(moved before x).mp fault⟩
        rw [readEntries,first,read]
        rfl
      · rintro ⟨before,x,after,split,⟨ts,read⟩,fault⟩
        rcases List.cons_eq_append_iff.mp split with ⟨rfl,same⟩ | ⟨rest,rfl,tail⟩
        · obtain ⟨rfl,rfl⟩ := List.cons.inj same
          cases first.symm.trans (readEntry_eq_error.mpr fault)
        · refine ⟨rest,x,after,tail,?_,(moved rest x).mpr fault⟩
          rw [readEntries,first] at read
          cases others : readEntries states (y.id :: seen) rest with
          | error e' => rw [others] at read; cases read
          | ok us => exact ⟨us,rfl⟩

/-- Entries show transitions just if there is a regular expression on each. -/
theorem exists_denotes_iff : (∃ ts, List.Forall₂ Entry.Denotes xs ts) ↔
    ∀ x ∈ xs, ∃ r, Regex.parse x.label = .ok (some r) := by
  induction xs with
  | nil => exact ⟨fun _ => nofun,fun _ => ⟨[],.nil⟩⟩
  | cons x xs ih =>
    rw [List.forall_mem_cons,← ih]
    constructor
    · rintro ⟨_,all⟩
      obtain ⟨t,ts,denotes,tail,_⟩ := List.forall₂_cons_left_iff.mp all
      exact ⟨⟨t.label,denotes.label⟩,ts,tail⟩
    · rintro ⟨⟨r,parsed⟩,ts,tail⟩
      exact ⟨⟨⟨x.source,x.target,r⟩,x.id⟩ :: ts,.cons ⟨rfl,rfl,rfl,parsed⟩ tail⟩

end

theorem repeated?_eq_some {seen xs : List Nat} {id : Nat} : repeated? seen xs = some id ↔ ∃ before after,
    xs = before ++ id :: after ∧ repeated? seen before = none ∧ (id ∈ before ∨ id ∈ seen) := by
  induction xs generalizing seen with
  | nil =>
    refine ⟨nofun,?_⟩
    rintro ⟨before,after,none,_⟩
    exact absurd none.symm (List.append_ne_nil_of_right_ne_nil before (List.cons_ne_nil id after))
  | cons x xs ih =>
    rw [repeated?]
    split
    · rename_i old
      constructor
      · rintro ⟨⟩
        exact ⟨[],xs,rfl,rfl,.inr old⟩
      · rintro ⟨before,after,split,unique,_⟩
        rcases List.cons_eq_append_iff.mp split with ⟨rfl,same⟩ | ⟨rest,rfl,_⟩
        · rw [(List.cons.inj same).1]
        · exact absurd old ((repeated?_eq_none.mp unique).2 x List.mem_cons_self)
    · rename_i new
      rw [ih]
      constructor
      · rintro ⟨before,after,rfl,unique,old⟩
        refine ⟨x :: before,after,rfl,?_,?_⟩
        · rw [repeated?,if_neg new]
          exact unique
        · simpa [or_left_comm,or_assoc] using old
      · rintro ⟨before,after,split,unique,old⟩
        rcases List.cons_eq_append_iff.mp split with ⟨rfl,same⟩ | ⟨rest,rfl,tail⟩
        · obtain ⟨rfl,rfl⟩ := List.cons.inj same
          exact absurd (old.resolve_left List.not_mem_nil) new
        · rw [repeated?,if_neg new] at unique
          exact ⟨rest,after,tail,unique,by simpa [or_left_comm,or_assoc] using old⟩

variable {s : Snapshot} {e : Error}

theorem orderly_iff : s.Orderly ↔ s.stateIds.Nodup ∧ s.start ∈ s.stateIds ∧
    ∃ ts, readEntries s.stateIds [] s.transitions = .ok ts := by
  constructor
  · rintro ⟨states,start,transitions,source,target,label⟩
    obtain ⟨ts,all⟩ := exists_denotes_iff.mpr label
    exact ⟨states,start,ts,readEntries_eq_ok.mpr ⟨all,transitions,fun x listed =>
      ⟨List.not_mem_nil,source x listed,target x listed⟩⟩⟩
  · rintro ⟨states,start,ts,read⟩
    obtain ⟨all,transitions,fits⟩ := readEntries_eq_ok.mp read
    exact ⟨states,start,transitions,fun x listed => (fits x listed).2.1,fun x listed => (fits x listed).2.2,
      exists_denotes_iff.mp ⟨ts,all⟩⟩

theorem check_of_repeated {id : Nat} (repeated : repeated? [] s.stateIds = some id) :
    s.check = .error (.snapshot (.duplicateState id)) := by
  rw [check,repeated]

theorem check_of_unlisted (unique : s.stateIds.Nodup) (missing : s.start ∉ s.stateIds) :
    s.check = .error (.snapshot (.unlistedStart s.start)) := by
  have absent : s.states.find? (·.id == s.start) = none := by
    refine List.find?_eq_none.mpr fun r member same => missing ?_
    exact List.mem_map.mpr ⟨r,member,beq_iff_eq.mp same⟩
  rw [check,repeated?_eq_none.mpr ⟨unique,fun _ _ => List.not_mem_nil⟩]
  dsimp only
  rw [absent]

/-- Once the states are in order, what is left to look at are the transitions. -/
theorem check_of_listed (unique : s.stateIds.Nodup) (listed : s.start ∈ s.stateIds) : ∃ start : State,
    start.id = s.start ∧ s.check = (readEntries s.stateIds [] s.transitions).map (start,·) := by
  obtain ⟨start,found⟩ : ∃ start, s.states.find? (·.id == s.start) = some start := by
    obtain ⟨r,member,same⟩ := List.mem_map.mp listed
    exact Option.isSome_iff_exists.mp (List.find?_isSome.mpr ⟨r,member,beq_iff_eq.mpr same⟩)
  refine ⟨start,by simpa using List.find?_some found,?_⟩
  rw [check,repeated?_eq_none.mpr ⟨unique,fun _ _ => List.not_mem_nil⟩]
  dsimp only
  rw [found]

theorem check_eq_error : s.check = .error e ↔ s.Fault e := by
  constructor
  · intro checked
    cases repeated : repeated? [] s.stateIds with
    | some id =>
      obtain ⟨before,after,split,unique,old⟩ := repeated?_eq_some.mp repeated
      rw [check_of_repeated repeated] at checked
      cases checked
      exact .state split (repeated?_eq_none.mp unique).1 (old.resolve_right List.not_mem_nil)
    | none =>
      have unique := (repeated?_eq_none.mp repeated).1
      by_cases listed : s.start ∈ s.stateIds
      · obtain ⟨start,_,same⟩ := check_of_listed unique listed
        have read : readEntries s.stateIds [] s.transitions = .error e := by
          rw [same] at checked
          exact map_eq_error.mp checked
        obtain ⟨before,x,after,split,fine,fault⟩ := readEntries_eq_error.mp read
        rw [List.append_nil] at fault
        exact .transition split (orderly_iff.mpr ⟨unique,listed,fine⟩) fault
      · rw [check_of_unlisted unique listed] at checked
        cases checked
        exact .start unique listed
  · intro fault
    cases fault with
    | state split unique old =>
      have new := repeated?_eq_none.mpr ⟨unique,fun _ _ => List.not_mem_nil⟩
      exact check_of_repeated (repeated?_eq_some.mpr ⟨_,_,split,new,.inl old⟩)
    | start unique missing => exact check_of_unlisted unique missing
    | @transition before after x e split orderly fault =>
      obtain ⟨start,_,same⟩ := check_of_listed (s := s) orderly.states orderly.start
      have read : readEntries s.stateIds [] s.transitions = .error e := by
        refine readEntries_eq_error.mpr ⟨before,x,after,split,(orderly_iff.mp orderly).2.2,?_⟩
        rwa [List.append_nil]
      rw [same,read]
      rfl

theorem restore_eq_error [Ids] : s.restore = .error e ↔ s.Fault e := by
  rw [← check_eq_error,restore,map_eq_error]

theorem exists_restore_iff [Ids] : (∃ a, s.restore = .ok a) ↔ s.Orderly := by
  constructor
  · rintro ⟨a,restored⟩
    obtain ⟨start,ts,checked,_⟩ := restore_ok restored
    obtain ⟨unique,_,read⟩ := check_ok checked
    by_cases listed : s.start ∈ s.stateIds
    · exact orderly_iff.mpr ⟨unique,listed,ts,read⟩
    · cases checked.symm.trans (check_of_unlisted unique listed)
  · intro orderly
    obtain ⟨unique,listed,ts,read⟩ := orderly_iff.mp orderly
    obtain ⟨start,_,checked⟩ := check_of_listed unique listed
    rw [read] at checked
    exact ⟨_,restore_eq checked⟩

theorem depicts_of_restore [Ids] (followed : s.Followed) {a : Automaton} (restored : s.restore = .ok a) :
    s.Depicts a := by
  obtain ⟨start,ts,checked,_⟩ := restore_ok restored
  obtain ⟨unique,⟨listed,first⟩,read⟩ := check_ok checked
  obtain ⟨all,_,_⟩ := readEntries_eq_ok.mp read
  obtain ⟨ids,nodup,_⟩ := readEntries_ok read
  obtain ⟨b,again,shown⟩ := shown checked
  cases restored.symm.trans again
  refine ⟨consistent_restore followed restored,shown.start.trans first,shown.states_perm unique,
    ⟨ts,all,shown.transitions_perm (ids ▸ nodup),shown.listed .source,shown.listed .target⟩,fun n => ?_,fun n => ?_⟩
  · have member : s.start ∈ s.stateIds := first ▸ List.mem_map_of_mem listed
    have states : above s.stateIds ≤ n ↔ ∀ r ∈ s.states, r.id < n :=
      (above_le_iff followed.states).trans List.forall_mem_map
    have start (le : above s.stateIds ≤ n) : Ids.after s.start ≤ n := by
      rw [followed.states _ member]
      exact (above_le_iff followed.states).mp le _ member
    rw [shown.counters,← states]
    show max (max _ _) _ ≤ n ↔ _
    rw [Nat.max_le,Nat.max_le]
    exact ⟨fun ⟨⟨_,given⟩,le⟩ => ⟨given,le⟩,fun ⟨given,le⟩ => ⟨⟨start le,given⟩,le⟩⟩
  · have transitions : above (s.transitions.map Entry.id) ≤ n ↔ ∀ x ∈ s.transitions, x.id < n :=
      (above_le_iff followed.transitions).trans List.forall_mem_map
    rw [shown.counters,← transitions]
    show max (max 0 _) _ ≤ n ↔ _
    rw [Nat.zero_max,Nat.max_le]

/-- A picture that is in order is restored, and if every id in it is followed by a greater one, as the automaton it
    depicts. From any other picture there comes the error for what is wrong with it first. -/
theorem restore_exact [Ids] (s : Snapshot) : ((∃ a, s.restore = .ok a) ↔ s.Orderly) ∧
    (s.Followed → ∀ a, s.restore = .ok a → s.Depicts a) ∧ ∀ e, s.restore = .error e ↔ s.Fault e :=
  ⟨exists_restore_iff,fun followed _ => depicts_of_restore followed,fun _ => restore_eq_error⟩

/-- The start state is not listed first, and the counter for states is lower than their ids. Of two entries with faults
    the first counts, and of two faults of an entry the one that is looked for first. -/
theorem restore_exact_gaps :
    let picture (xs : List Entry) : Snapshot :=
      ⟨2,[⟨5,true⟩,⟨2,false⟩],⟨3,2,5,"(a|b)*c"⟩ :: xs,some 4,some 20⟩
    (∃ a, (picture [⟨8,5,2,"ε"⟩]).restore = .ok a ∧ (picture [⟨8,5,2,"ε"⟩]).Depicts a ∧ a.counters = ⟨6,20⟩) ∧
    (picture [⟨8,5,9,"a)"⟩,⟨3,2,5," "⟩]).Fault (.snapshot (.missingState 8 9)) ∧
    (picture [⟨8,5,2,"b"⟩,⟨3,2,5," "⟩]).Fault (.snapshot (.duplicateTransition 3)) ∧
    (picture [⟨9,2,5," "⟩,⟨8,5,9,"a)"⟩]).Fault (.snapshot (.emptyLabel 9)) ∧
    ¬(picture [⟨9,2,5," "⟩,⟨8,5,9,"a)"⟩]).Orderly := by
  intro picture
  obtain ⟨a,restored⟩ : ∃ a, (picture [⟨8,5,2,"ε"⟩]).restore = .ok a := ⟨_,rfl⟩
  have blank : (picture [⟨9,2,5," "⟩,⟨8,5,9,"a)"⟩]).restore = .error (.snapshot (.emptyLabel 9)) := rfl
  refine ⟨⟨a,restored,(restore_exact _).2.1 (by decide) a restored,?_⟩,((restore_exact _).2.2 _).mp rfl,
    ((restore_exact _).2.2 _).mp rfl,((restore_exact _).2.2 _).mp blank,fun orderly => ?_⟩
  · cases restored
    rfl
  · obtain ⟨b,restored⟩ := (restore_exact _).1.mpr orderly
    cases blank.symm.trans restored

end StepwiseAutomata.Snapshot
