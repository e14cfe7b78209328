import StepwiseAutomata.Proofs.KeptLabels
import StepwiseAutomata.Proofs.Simplification

/-!
The shape of expressions as it is seen from outside, through the operator of a node, its character and its operands. An
expression has that shape at each of its nodes if and only if it is a flat tree; and whatever is made by constructors, by
reading, by simplification or by sessions, and whatever is taken out of that again, is a flat tree.
-/
namespace StepwiseAutomata

namespace Regex

/-- The shape of one node: a leaf is a character, a quantifier on a character alone has that character in place of
    operands and any other has one operand, and a list of operands has at least two, none with the operator of the list. -/
structure Proper (n : Regex) : Prop where
  leaf : n.operator = .leaf → n.isSingleChar = true
  folded : n.operator.isUnary = true → ∀ c, n.operand = some (.char c) → n.charValue = some c ∧ n.operands = []
  single : n.operator.isUnary = true → (∀ c, n.operand ≠ some (.char c)) →
    n.isSingleChar = false ∧ ∃ s, n.operands = [s] ∧ n.operand = some s
  several : n.operator = .sequence ∨ n.operator = .choice →
    n.isSingleChar = false ∧ 2 ≤ n.operands.length ∧ ∀ s ∈ n.operands, s.operator ≠ n.operator

variable {r s : Regex} {rs : List Regex}

theorem proper_char (c : Char) : (char c).Proper where
  leaf _ := rfl
  folded unary := by cases unary
  single unary := by cases unary
  several list := by rcases list with list | list <;> cases list

theorem proper_quant (q : Quantifier) (r : Regex) : (quant q r).Proper where
  leaf bare := by cases q <;> cases bare
  folded _ c bare := by
    cases bare
    exact ⟨rfl,rfl⟩
  single _ compound := by
    cases r with
    | char c => exact absurd rfl (compound c)
    | _ => exact ⟨rfl,_,rfl,rfl⟩
  several list := by cases q <;> rcases list with list | list <;> cases list

theorem proper_seq : (seq rs).Proper ↔ 2 ≤ rs.length ∧ ∀ r ∈ rs, r.operator ≠ .sequence := by
  constructor
  · exact fun proper => (proper.several (.inl rfl)).2
  · exact fun several => ⟨nofun,nofun,nofun,fun _ => ⟨rfl,several⟩⟩

theorem proper_choice : (choice rs).Proper ↔ 2 ≤ rs.length ∧ ∀ r ∈ rs, r.operator ≠ .choice := by
  constructor
  · exact fun proper => (proper.several (.inr rfl)).2
  · exact fun several => ⟨nofun,nofun,nofun,fun _ => ⟨rfl,several⟩⟩

/-- Flat trees are those that have the shape at every node. -/
theorem flat_iff_proper : r.Flat ↔ ∀ n ∈ r.nodes, n.Proper := by
  constructor
  · intro flat
    induction flat with
    | char c =>
      intro n member
      rw [nodes,List.mem_singleton] at member
      exact member ▸ proper_char c
    | quant q _ ih =>
      rw [nodes,List.forall_mem_cons]
      exact ⟨proper_quant q _,ih⟩
    | seq many _ other ih =>
      rw [nodes,List.forall_mem_cons]
      refine ⟨proper_seq.mpr ⟨many,other⟩,fun n member => ?_⟩
      obtain ⟨r,listed,under⟩ := mem_nodesAll.mp member
      exact ih r listed n under
    | choice many _ other ih =>
      rw [nodes,List.forall_mem_cons]
      refine ⟨proper_choice.mpr ⟨many,other⟩,fun n member => ?_⟩
      obtain ⟨r,listed,under⟩ := mem_nodesAll.mp member
      exact ih r listed n under
  · intro proper
    induction r with
    | char c => exact .char c
    | quant q r ih =>
      rw [nodes,List.forall_mem_cons] at proper
      exact .quant q (ih proper.2)
    | seq rs ih =>
      rw [nodes,List.forall_mem_cons] at proper
      obtain ⟨many,other⟩ := proper_seq.mp proper.1
      exact .seq many (fun r listed => ih r listed fun n under => proper.2 n (mem_nodesAll.mpr ⟨r,listed,under⟩)) other
    | choice rs ih =>
      rw [nodes,List.forall_mem_cons] at proper
      obtain ⟨many,other⟩ := proper_choice.mp proper.1
      exact .choice many (fun r listed => ih r listed fun n under => proper.2 n (mem_nodesAll.mpr ⟨r,listed,under⟩)) other

theorem mem_children_of_operand (operand : r.operand = some s) : s ∈ r.children := by
  cases r with
  | quant q r =>
    cases operand
    exact List.mem_singleton_self _
  | _ => cases operand

theorem mem_children_of_mem_operands (member : s ∈ r.operands) : s ∈ r.children := by
  cases r with
  | char c => cases member
  | quant q r =>
    cases r with
    | char c => cases member
    | _ => exact member
  | _ => exact member

end Regex

open Session (Begins Call)

section
variable [Ids]

mutual
/-- The expressions that come from constructors, from reading and simplifying, from the parts of other expressions and
    from the labels of sessions. -/
inductive Obtained : Regex → Prop
  | char (c : Char) : Obtained (.char c)
  | epsilon : Obtained .epsilon
  | quant (q : Quantifier) {r : Regex} : Obtained r → Obtained (.quant q r)
  | unary {op : Operator} {r s : Regex} : Obtained r → Regex.unary op r = .ok s → Obtained s
  | compound {op : Operator} {rs : List Regex} {s : Regex} : (∀ r ∈ rs, Obtained r) → Regex.compound op rs = .ok s →
      Obtained s
  | parse {text : String} {r : Regex} : Regex.parse text = .ok (some r) → Obtained r
  | optimiseToDepth (depth : Nat) {r : Regex} : Obtained r → Obtained (r.optimiseToDepth depth)
  | optimise {r : Regex} : Obtained r → Obtained r.optimise
  | operand {r s : Regex} : Obtained r → r.operand = some s → Obtained s
  | operands {r s : Regex} : Obtained r → s ∈ r.operands → Obtained s
  | label {s : Session} {t : Transition} : Reached s → s.automaton.Bears t → Obtained t.label
  | answer {s : Session} {r : Regex} : Reached s → (Session.toRegex.run s).1 = .ok (some r) → Obtained r

/-- The sessions that come up in runs, on whatever automaton of such expressions they are begun and whatever commands
    with such expressions are executed between the calls. -/
inductive Reached : Session → Prop
  | begins {s : Session} : Begins s → Reached s
  | ofAutomaton {a : Automaton} (settings : Settings) : (∀ t, a.Bears t → Obtained t.label) →
      Reached (.ofAutomaton a settings)
  | after {s : Session} (call : Call) : Reached s → Reached (s.after call)
  | execute {s : Session} (c : Command) : Reached s → (∀ t, c.Names t → Obtained t.label) →
      Reached ((Session.execute c).run s).2
end

-- Expressions and sessions come from each other, so what is obtained and what is reached are followed together.
mutual
theorem Obtained.flat {r : Regex} : Obtained r → r.Flat
  | .char c => .char c
  | .epsilon => .char _
  | .quant q made => .quant q made.flat
  | .unary made ok => Regex.flat_unary ok made.flat
  | .compound made ok => Regex.flat_compound ok fun r member => (made r member).flat
  | .parse parsed => Regex.parse_flat parsed
  | .optimiseToDepth depth made => (Regex.optimiseToDepth_sound depth made.flat).1
  | .optimise made => (Regex.optimise_sound made.flat).1
  | .operand made under => made.flat.of_mem_children (Regex.mem_children_of_operand under)
  | .operands made under => made.flat.of_mem_children (Regex.mem_children_of_mem_operands under)
  | .label reached bears => reached.flatLabels.automaton _ bears
  | .answer reached read => Session.flat_toRegex reached.flatLabels read

theorem Reached.flatLabels {s : Session} : Reached s → s.FlatLabels
  | .begins begins => begins.flatLabels
  | .ofAutomaton settings made => ⟨fun t bears => (made t bears).flat,nofun⟩
  | .after call reached => Session.flatLabels_after reached.flatLabels call
  | .execute c reached made => Session.flatLabels_execute reached.flatLabels fun t named => (made t named).flat
end

/-- Every expression that can be obtained, and every label of an automaton that a run of a session comes to, has the
    shape at each of its nodes. -/
theorem canonical_shape : (∀ r, Obtained r → ∀ n ∈ r.nodes, n.Proper) ∧
    ∀ s, Reached s → ∀ t, s.automaton.Bears t → ∀ n ∈ t.label.nodes, n.Proper :=
  ⟨fun _ made => Regex.flat_iff_proper.mp made.flat,
    fun _ reached t bears => Regex.flat_iff_proper.mp (reached.flatLabels.automaton t bears)⟩

end

/-- Eliminating the states between four characters splices one sequence into the next, and so does a sequence of what
    comes of that. -/
theorem canonical_shape_spliced : ∃ s t r, Session.ofRegex "abcd" {} = .ok s ∧
    (s.afterAll [.breakdownAll,.toRegex]).automaton.Bears t ∧
    t.label = .seq [.char 'a',.char 'b',.char 'c',.char 'd'] ∧ (∀ n ∈ t.label.nodes, n.Proper) ∧
    Regex.compound .sequence [t.label,t.label] = .ok r ∧ r.operands.length = 8 ∧ ∀ n ∈ r.nodes, n.Proper := by
  obtain ⟨s,made,labels⟩ : ∃ s, Session.ofRegex "abcd" {} = .ok s ∧
      (s.afterAll [.breakdownAll,.toRegex]).automaton.transitions.map (·.label) =
        [.seq [.char 'a',.char 'b',.char 'c',.char 'd']] := ⟨_,rfl,by decide +kernel⟩
  obtain ⟨t,listed,label⟩ := List.mem_map.mp (labels ▸ List.mem_singleton_self _)
  have bears := Automaton.bears_of_mem_transitions listed
  have reached : Reached (s.afterAll [.breakdownAll,.toRegex]) :=
    .after .toRegex (.after .breakdownAll (.begins (.ofRegex made)))
  have twice : ∀ r ∈ [t.label,t.label], Obtained r := by
    intro r member
    rw [List.mem_pair,or_self] at member
    exact member ▸ .label reached bears
  obtain ⟨r,joined,many⟩ : ∃ r, Regex.compound .sequence [t.label,t.label] = .ok r ∧ r.operands.length = 8 := by
    rw [label]
    exact ⟨_,rfl,rfl⟩
  exact ⟨s,t,r,made,bears,label,canonical_shape.2 _ reached t bears,joined,many,
    canonical_shape.1 r (.compound twice joined)⟩

end StepwiseAutomata
