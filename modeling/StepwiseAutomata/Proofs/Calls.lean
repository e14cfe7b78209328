import StepwiseAutomata.Proofs.Agreement
import StepwiseAutomata.Proofs.Scripts
import StepwiseAutomata.Proofs.Snapshot

namespace StepwiseAutomata

namespace Session

/-- What a session can be asked to do. -/
inductive Call where
  | breakdownTransition (id : Nat)
  | breakdownAll
  | determinize
  | toRegex
  | undo
  | redo
  | seek (index : Nat)
  | setClobber (clobber : Bool)

end Session

section
variable [Ids]

/-- What sessions start from: a start state alone, or the automaton of a picture where every id is followed by a
    greater one. -/
inductive Automaton.Given : Automaton → Prop
  | initial : Given .initial
  | restored {picture : Snapshot} {a : Automaton} : picture.Followed → picture.restore = .ok a → Given a

theorem Automaton.Given.consistent {a : Automaton} (given : a.Given) : a.Consistent := by
  cases given with
  | initial => exact consistent_initial
  | restored followed restored => exact Snapshot.consistent_restore followed restored

namespace Session

variable {s : Session}

/-- The session after a call, whether the call fails or not. -/
def after (s : Session) : Call → Session
  | .breakdownTransition id => ((breakdownTransition id).run s).2
  | .breakdownAll => (breakdownAll.run s).2
  | .determinize => (determinize.run s).2
  | .toRegex => (toRegex.run s).2
  | .undo => s.undo
  | .redo => s.redo
  | .seek index => ((seek index).run s).2
  | .setClobber clobber => { s with toEditor := s.setClobber clobber }

def afterAll (s : Session) (calls : List Call) : Session := calls.foldl after s

theorem afterAll_nil (s : Session) : s.afterAll [] = s := List.foldl_nil

theorem afterAll_cons (s : Session) (call : Call) (calls : List Call) :
    s.afterAll (call :: calls) = (s.after call).afterAll calls := List.foldl_cons ..

/-- How sessions begin: with nothing but a start state, with a written expression, or with the automaton of a picture
    where every id is followed by a greater one. -/
inductive Begins : Session → Prop
  | initial (settings : Settings) : Begins (initial settings)
  | ofRegex {text : String} {settings : Settings} {s : Session} : ofRegex text settings = .ok s → Begins s
  | ofAutomaton {picture : Snapshot} {a : Automaton} (settings : Settings) : picture.Followed →
      picture.restore = .ok a → Begins (ofAutomaton a settings)

/-- What is made for a written expression is made by a plan. -/
theorem ofRegex_eq {text : String} {r : Regex} (parsed : Regex.parse text = .ok (some r)) (settings : Settings) :
    ofRegex text settings = ((perform (Automaton.initial.creation r)).run (initial settings)).1.map
      fun _ => ((perform (Automaton.initial.creation r)).run (initial settings)).2 := by
  rw [ofRegex,parsed]
  rfl

/-- The session for a written expression begins with the automaton of one transition. -/
theorem ofRegex_performed {text : String} {r : Regex} (parsed : Regex.parse text = .ok (some r)) (settings : Settings) :
    ∃ s, ofRegex text settings = .ok s ∧ Performed (Automaton.initial.creation r) (initial settings) s := by
  obtain ⟨_,s,result,performed⟩ := completes_perform (s := initial settings) (.inl rfl) (Automaton.initial.creation r)
  refine ⟨s,?_,performed⟩
  rw [ofRegex_eq parsed,result]
  rfl

theorem Performed.graph_creation {settings : Settings} {r : Regex}
    (performed : Performed (Automaton.initial.creation r) (initial settings) s) :
    s.automaton.graph = Automaton.initial.graph.editAll ((Automaton.creating .initial r).edits .initial) := by
  rw [performed.graph,Automaton.creation_eq,Rewriting.edits_plan]
  rfl

/-- A session begins with an automaton, and perhaps what makes that of an expression. -/
theorem Begins.acts (begins : Begins s) : ∃ base settings, base.Given ∧
    (Session.ofAutomaton base settings).Acts s.toEditor := by
  cases begins with
  | initial settings => exact ⟨.initial,settings,.initial,.refl⟩
  | @ofAutomaton picture a settings followed restored => exact ⟨a,settings,.restored followed restored,.refl⟩
  | @ofRegex text settings s made =>
    refine ⟨.initial,settings,.initial,?_⟩
    cases parsed : Regex.parse text with
    | error e => rw [Session.ofRegex,parsed] at made; cases made
    | ok parsedAs => cases parsedAs with
      | none => rw [Session.ofRegex,parsed] at made; cases made
      | some r =>
        have acts := (Scripted.perform (s := Session.initial settings) (.create parsed)).acts
        rw [ofRegex_eq parsed] at made
        rcases result : (perform (Automaton.initial.creation r)).run (Session.initial settings) with ⟨outcome,t⟩
        have initial : (Session.initial settings).automaton = .initial := rfl
        rw [initial,result] at acts
        rw [result] at made
        cases outcome with
        | error e => cases made
        | ok _ =>
          cases made
          exact acts

/-- Whatever a call does but to change whether the history may be clobbered. -/
theorem steps_after (s : Session) {call : Call} (free : ∀ b, call ≠ .setClobber b) :
    s.Steps (s.after call).toEditor := by
  cases call with
  | breakdownTransition id => exact (scripted_breakdownTransition id s).acts.steps
  | breakdownAll => exact (scripted_breakdownAll s).acts.steps
  | determinize => exact (scripted_determinize s).acts.steps
  | toRegex => exact (scripted_toRegex s).acts.steps
  | undo => exact Editor.steps_undo s.toEditor
  | redo => exact Editor.steps_redo s.toEditor
  | setClobber clobber => exact absurd rfl (free clobber)
  | seek index =>
    rw [after,Session.seek,run_get]
    cases sought : s.toEditor.seek index with
    | error e => exact .refl
    | ok e => exact Editor.steps_seek sought

end Session

end

namespace Session

attribute [local instance] Ids.endless

variable {s : Session}

/-- The one transition leads from the start state to a new final state. -/
theorem Performed.creation {settings : Settings} {r : Regex}
    (performed : Performed (Automaton.initial.creation r) (initial settings) s) :
    s.automaton.Consistent ∧ (∀ arc, s.automaton.graph.HasArc arc ↔ arc = ⟨0,1,r⟩) ∧
      ∀ i, s.automaton.graph.flag? i = if i = 1 then some true else if i = 0 then some false else none := by
  have fits := Automaton.creating_fits Automaton.consistent_initial r
  have graph := performed.graph_creation
  have sound := Automaton.creation_sound Automaton.consistent_initial r
  refine ⟨performed.automaton ▸ Automaton.consistent_initial.perform sound,?_,?_⟩
  · intro arc
    rw [graph,Rewriting.hasArc Automaton.consistent_initial fits]
    constructor
    · rintro (new | ⟨t,⟨has,_⟩,_⟩)
      · exact List.mem_singleton.mp new
      · cases has
    · rintro rfl
      exact .inl (List.mem_singleton_self _)
  · intro i
    rw [graph]
    by_cases new : i = 1
    · have member : (⟨1,true⟩ : State) ∈ (Automaton.creating .initial r).created := List.mem_singleton_self _
      rw [new]
      exact Rewriting.flag?_created Automaton.consistent_initial fits member
    · rw [Rewriting.flag?_other Automaton.consistent_initial fits fun member => new (List.mem_singleton.mp member),
        if_neg new]
      show Option.map Vertex.isFinal (((∅ : IdMap Vertex).insert 0 { isFinal := false }).get? i) = _
      rw [IdMap.get?_insert,IdMap.get?_empty]
      split <;> rfl

theorem coherent_ofAutomaton {a : Automaton} (consistent : a.Consistent) (settings : Settings) :
    (ofAutomaton a settings).Coherent := ⟨consistent,nofun,trivial,trivial⟩

theorem coherent_of_acts {base : Automaton} {settings : Settings} (consistent : base.Consistent)
    (acts : (ofAutomaton base settings).Acts s.toEditor) : s.Coherent := by
  have start := coherent_ofAutomaton consistent settings
  exact start.moves (start.moves_of_steps acts.steps)

theorem moves_after (coherent : s.Coherent) (call : Call) : s.Moves (s.after call).toEditor := by
  cases call with
  | setClobber clobber => exact .single (.clobber _ clobber)
  | _ => exact coherent.moves_of_steps (steps_after s nofun)

theorem moves_afterAll (coherent : s.Coherent) (calls : List Call) : s.Moves (s.afterAll calls).toEditor := by
  induction calls generalizing s with
  | nil => exact .refl
  | cons call calls ih =>
    have first := moves_after coherent call
    exact first.trans (ih (coherent.moves first))

end Session

namespace Session

variable [Ids] {s : Session}

/-- There are ids for one state and one transition in any case. -/
theorem ofRegex_endless (text : String) (settings : Settings) :
    ofRegex text settings = @ofRegex Ids.endless text settings := by
  cases parsed : Regex.parse text with
  | error e => rw [ofRegex,@ofRegex.eq_1 Ids.endless,parsed]
  | ok read => cases read with
    | none => rw [ofRegex,@ofRegex.eq_1 Ids.endless,parsed]
    | some r =>
      have counters : (Automaton.initial.creation r).counters = ⟨Ids.after 1,Ids.after 0⟩ := rfl
      have same : Automaton.initial.creation r = @Automaton.creation Ids.endless .initial r := by
        refine (congrArg (fun c => { Automaton.initial.creation r with counters := c }) (counters.trans ?_) :)
        rw [Ids.after_of_le_one (Nat.le_refl 1),Ids.after_of_le_one (Nat.zero_le 1)]
        rfl
      rw [ofRegex_eq parsed,@ofRegex_eq Ids.endless _ _ parsed,same]

/-- However a session begins, it begins so as well if ids never come to an end. -/
theorem Begins.endless (begins : Begins s) : @Begins Ids.endless s := by
  cases begins with
  | initial settings => exact @Begins.initial Ids.endless settings
  | ofRegex made => exact @Begins.ofRegex Ids.endless _ _ _ (ofRegex_endless _ _ ▸ made)
  | ofAutomaton settings followed restored =>
    exact @Begins.ofAutomaton Ids.endless _ _ settings
      (@Snapshot.Followed.mk Ids.endless _ (fun _ _ => rfl) fun _ _ => rfl)
      (Snapshot.restore_endless followed ▸ restored)

theorem Begins.coherent (begins : Begins s) : s.Coherent := by
  obtain ⟨base,settings,given,acts⟩ := @Begins.acts Ids.endless s begins.endless
  exact coherent_of_acts (@Automaton.Given.consistent Ids.endless base given) acts

theorem agree_seek (index : Nat) : Ids.Agree (·.automaton.counters) (seek index) := by
  refine .fixed fun s => ?_
  rw [seek,run_get]
  cases sought : s.toEditor.seek index with
  | error e => exact Counters.le_refl _
  | ok e =>
    show s.automaton.counters ≤ e.automaton.counters
    rw [Editor.counters_seek sought]
    exact Counters.le_refl _

/-- No call puts a counter back, and ids without an end make no difference to it where there are enough. -/
theorem agree_after (s : Session) (call : Call) :
    s.automaton.counters ≤ (@after Ids.endless s call).automaton.counters ∧
      ((@after Ids.endless s call).automaton.counters.Fits → s.after call = @after Ids.endless s call) := by
  have ran {α : Type} {x : [Ids] → Action α} (agree : Ids.Agree (·.automaton.counters) x) :
      s.automaton.counters ≤ ((@x Ids.endless).run s).2.automaton.counters ∧
        (((@x Ids.endless).run s).2.automaton.counters.Fits → (x.run s).2 = ((@x Ids.endless).run s).2) := by
    have same := agree.run (s := s)
    exact ⟨agree.grows s,fun room => congrArg Prod.snd (same room)⟩
  have moved {d : Editor} (counters : d.automaton.counters = s.automaton.counters) :
      s.automaton.counters ≤ d.automaton.counters := counters ▸ Counters.le_refl _
  cases call with
  | breakdownTransition id => exact ran (agree_breakdownTransition id)
  | breakdownAll => exact ran agree_breakdownAll
  | determinize => exact ran agree_determinize
  | toRegex => exact ran agree_toRegex
  | undo => exact ⟨moved (Editor.counters_undo s.toEditor),fun _ => rfl⟩
  | redo => exact ⟨moved (Editor.counters_redo s.toEditor),fun _ => rfl⟩
  | seek index => exact ran (agree_seek index)
  | setClobber clobber => exact ⟨Counters.le_refl _,fun _ => rfl⟩

theorem agree_afterAll (s : Session) (calls : List Call) :
    s.automaton.counters ≤ (@afterAll Ids.endless s calls).automaton.counters ∧
      ((@afterAll Ids.endless s calls).automaton.counters.Fits → s.afterAll calls = @afterAll Ids.endless s calls) := by
  induction calls generalizing s with
  | nil =>
    rw [afterAll_nil,@afterAll_nil Ids.endless]
    exact ⟨Counters.le_refl _,fun _ => rfl⟩
  | cons call calls ih =>
    obtain ⟨grows,same⟩ := s.agree_after call
    obtain ⟨later,rest⟩ := ih (@after Ids.endless s call)
    rw [afterAll_cons,@afterAll_cons Ids.endless]
    refine ⟨Counters.le_trans grows later,fun room => ?_⟩
    rw [same (room.mono later)]
    exact rest room

theorem Begins.moves (begins : Begins s) {calls : List Call} (room : Ids.Suffice (s.afterAll calls).automaton.counters) :
    (s.afterAll calls).Coherent ∧ s.Moves (s.afterAll calls).toEditor := by
  have moves := moves_afterAll begins.coherent calls
  rw [(s.agree_afterAll calls).2 room]
  exact ⟨begins.coherent.moves moves,moves⟩

end Session

namespace Session

end Session
end StepwiseAutomata
