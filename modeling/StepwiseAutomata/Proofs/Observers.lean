import StepwiseAutomata.Proofs.Replay

namespace StepwiseAutomata

/-- What an observer knows of a history. -/
structure Sight where
  position : Nat
  size : Nat
  deriving DecidableEq

namespace Sight

variable {o : Sight}

/-- What the observer knows once the event has been heard. -/
def hear (o : Sight) : Event → Sight
  | .executed position => ⟨position,position⟩
  | .positionChanged _ after => { o with position := after }
  | .truncated size _ => { o with size }

def hearAll (o : Sight) (news : List Event) : Sight := news.foldl hear o

/-- The event can come next: a command is executed at the end, the cursor moves from where it is to another place in
    the history, and it is the commands after the cursor, of which there are some, that are dropped. -/
def Confirms (o : Sight) : Event → Prop
  | .executed position => o.position = o.size ∧ position = o.size + 1
  | .positionChanged before after => before = o.position ∧ after ≠ before ∧ after ≤ o.size
  | .truncated size removed => size = o.position ∧ 0 < removed ∧ size + removed = o.size

/-- Each of the events can come next once those before it have been heard. -/
def ConfirmsAll : Sight → List Event → Prop
  | _,[] => True
  | o,ev :: news => o.Confirms ev ∧ (o.hear ev).ConfirmsAll news

theorem hearAll_append (xs ys : List Event) : o.hearAll (xs ++ ys) = (o.hearAll xs).hearAll ys := List.foldl_append

theorem confirmsAll_append {xs ys : List Event} :
    o.ConfirmsAll (xs ++ ys) ↔ o.ConfirmsAll xs ∧ (o.hearAll xs).ConfirmsAll ys := by
  induction xs generalizing o with
  | nil => exact (iff_of_eq (true_and _)).symm
  | cons ev xs ih => exact (and_congr_right fun _ => ih).trans and_assoc.symm

end Sight

namespace Editor

variable {d e f : Editor} {xs ys : List Event}

def sight (e : Editor) : Sight := ⟨e.history.position,e.history.size⟩

/-- On the way from one editor to the other observers are told the news in their order, and can follow them. -/
structure Told (d : Editor) (news : List Event) (e : Editor) : Prop where
  events : e.events = news.reverse ++ d.events
  confirmed : d.sight.ConfirmsAll news
  heard : d.sight.hearAll news = e.sight

theorem Told.nothing (events : e.events = d.events) (sight : d.sight = e.sight) : Told d [] e := ⟨events,trivial,sight⟩

theorem Told.trans (first : Told d xs e) (second : Told e ys f) : Told d (xs ++ ys) f where
  events := by rw [second.events,first.events,List.reverse_append,List.append_assoc]
  confirmed := Sight.confirmsAll_append.mpr ⟨first.confirmed,first.heard ▸ second.confirmed⟩
  heard := by rw [Sight.hearAll_append,first.heard,second.heard]

@[simp] theorem events_changeAll (cs : List Change) : (e.changeAll cs).events = e.events := by
  induction cs generalizing e with
  | nil => rfl
  | cons c cs ih => exact ih

theorem told_truncate (some : e.history.undone ≠ []) :
    Told e [.truncated e.history.position e.history.undone.length] e.truncate where
  events := rfl
  confirmed := ⟨⟨rfl,List.length_pos_iff.mpr some,rfl⟩,trivial⟩
  heard := rfl

/-- At the end of the history a command makes it longer by one. -/
theorem told_append (last : e.history.undone = []) (c : Command) :
    Told e [.executed (e.history.position + 1)] (e.append c) := by
  have size : e.history.size = e.history.position := by
    rw [History.size,last]
    rfl
  have history := history_append (e := e) c
  refine ⟨?_,⟨⟨size.symm,congrArg (· + 1) size.symm⟩,trivial⟩,?_⟩
  · rw [append]
    show Event.executed ((e.note (.executing c)).changeAll c.forward).history.done.length.succ ::
      ((e.note (.executing c)).changeAll c.forward).events = _
    rw [history_changeAll,events_changeAll]
    rfl
  · show Sight.mk _ _ = Sight.mk (e.append c).history.position (e.append c).history.size
    rw [history]
    show _ = Sight.mk (e.history.position + 1) (e.history.position + 1 + e.history.undone.length)
    rw [last]
    rfl

theorem events_stepForward (e : Editor) : e.stepForward.events = e.events := by
  unfold stepForward
  split
  · rfl
  · exact events_changeAll _

theorem events_stepBackward (e : Editor) : e.stepBackward.events = e.events := by
  unfold stepBackward
  split
  · rfl
  · exact events_changeAll _

/-- Steps tell observers nothing and keep all commands. -/
def Silent (d e : Editor) : Prop := e.events = d.events ∧ e.history.commands = d.history.commands

theorem silent_stepForward (e : Editor) : Silent e e.stepForward := ⟨events_stepForward e,commands_stepForward⟩

theorem silent_stepBackward (e : Editor) : Silent e e.stepBackward := ⟨events_stepBackward e,commands_stepBackward⟩

theorem silent_steps {step : Editor → Editor} (each : ∀ d, Silent d (step d)) (n : Nat) (e : Editor) :
    Silent e (steps step n e) := by
  induction n generalizing e with
  | zero => exact ⟨rfl,rfl⟩
  | succ n ih =>
    obtain ⟨events,commands⟩ := ih (step e)
    exact ⟨events.trans (each e).1,commands.trans (each e).2⟩

theorem Silent.size (silent : Silent d e) : e.history.size = d.history.size := by
  rw [← History.length_commands,silent.2,History.length_commands]

/-- The event of a move of the cursor, if it is one. -/
def moved (e : Editor) (after : Nat) : List Event :=
  if after = e.history.position then [] else [.positionChanged e.history.position after]

/-- After whatever steps, observers are told of the move as a whole. -/
theorem told_notifyMoved (silent : Silent d e) {after : Nat} (there : e.history.position = after) :
    Told d (d.moved after) (e.notifyMoved d.history.position) := by
  subst there
  have size := silent.size
  unfold notifyMoved moved
  split
  · rename_i still
    exact .nothing silent.1 (by rw [sight,sight,still,size])
  · rename_i away
    have within : e.history.position ≤ d.history.size := size ▸ Nat.le_add_right _ _
    refine ⟨congrArg (_ :: ·) silent.1,⟨⟨rfl,away,within⟩,trivial⟩,?_⟩
    show Sight.mk e.history.position d.history.size = Sight.mk e.history.position e.history.size
    rw [size]

theorem position_stepForward (e : Editor) :
    e.stepForward.history.position = min (e.history.position + 1) e.history.size := by
  have size : e.stepForward.history.position + e.stepForward.history.undone.length =
    e.history.position + e.history.undone.length := (silent_stepForward e).size
  rw [length_undone_stepForward] at size
  show _ = min _ (e.history.position + e.history.undone.length)
  have longer : e.history.undone = [] → e.stepForward.history.position = e.history.position :=
    fun last => by rw [stepForward_of_nil last]
  cases last : e.history.undone with
  | nil =>
    rw [longer last]
    simp
  | cons c cs =>
    rw [last,List.length_cons] at size
    rw [List.length_cons]
    omega

/-- However many steps it takes, the cursor gets where it is sought. -/
theorem position_sought {index : Nat} (within : index ≤ e.history.size) :
    (steps stepBackward (e.history.position - index)
      (steps stepForward (index - e.history.position) e)).history.position = index := by
  have size : (steps stepForward (index - e.history.position) e).history.position +
      (steps stepForward (index - e.history.position) e).history.undone.length = e.history.size :=
    (silent_steps silent_stepForward _ e).size
  have all : e.history.size = e.history.position + e.history.undone.length := rfl
  rw [position_stepsBackward]
  rw [length_undone_stepsForward] at size
  omega

/-- What observers are told when the editor is asked for something. -/
def news (e : Editor) : Request → List Event
  | .adopt _ => []
  | .execute _ =>
    if e.history.undone.isEmpty then [.executed (e.history.position + 1)]
    else if e.history.clobber then
      [.truncated e.history.position e.history.undone.length,.executed (e.history.position + 1)]
    else []
  | .undo => e.moved (e.history.position - 1)
  | .redo => e.moved (min (e.history.position + 1) e.history.size)
  | .seek index => if index ≤ e.history.size then e.moved index else []
  | .setClobber _ => []

/-- What observers are told when the editor is asked for one thing after the other. -/
def newsAll (e : Editor) : List Request → List Event
  | [] => []
  | r :: rs => e.news r ++ (e.answer r).newsAll rs

theorem told_answer (e : Editor) (r : Request) : Told e (e.news r) (e.answer r) := by
  cases r with
  | adopt p => exact .nothing rfl rfl
  | setClobber clobber => exact .nothing rfl rfl
  | undo => exact told_notifyMoved (silent_stepBackward e) (position_stepBackward e)
  | redo => exact told_notifyMoved (silent_stepForward e) (position_stepForward e)
  | execute c =>
    rw [answer,news,execute]
    by_cases last : e.history.undone.isEmpty
    · rw [if_pos last,if_pos last]
      exact told_append (List.isEmpty_iff.mp last) c
    · rw [if_neg last,if_neg last]
      split
      · exact (told_truncate fun none => last (List.isEmpty_iff.mpr none)).trans (told_append rfl c)
      · exact .nothing rfl rfl
  | seek index =>
    rw [answer,news,seek]
    by_cases beyond : e.history.size < index
    · rw [if_pos beyond,if_neg (Nat.not_le_of_lt beyond)]
      exact .nothing rfl rfl
    · have within := Nat.le_of_not_lt beyond
      rw [if_neg beyond,if_pos within]
      have forward := silent_steps silent_stepForward (index - e.history.position) e
      have backward := silent_steps silent_stepBackward (e.history.position - index)
        (steps stepForward (index - e.history.position) e)
      exact told_notifyMoved ⟨backward.1.trans forward.1,backward.2.trans forward.2⟩ (position_sought within)

theorem told_answerAll (e : Editor) (rs : List Request) : Told e (e.newsAll rs) (e.answerAll rs) := by
  induction rs generalizing e with
  | nil => exact .nothing rfl rfl
  | cons r rs ih => exact (told_answer e r).trans (ih (e.answer r))

theorem position_hearAll_moved (e : Editor) (after : Nat) : (e.sight.hearAll (e.moved after)).position = after := by
  unfold moved
  split
  · rename_i still
    exact still.symm
  · rfl

/-- Observers are told something exactly if it shows where the cursor is or how many commands there are. -/
theorem news_eq_nil_iff {r : Request} : e.news r = [] ↔ (e.answer r).sight = e.sight := by
  have heard := (told_answer e r).heard
  constructor
  · intro nothing
    rw [nothing] at heard
    exact heard.symm
  · intro same
    have position : (e.sight.hearAll (e.news r)).position = e.history.position := by
      rw [heard,same]
      rfl
    cases r with
    | adopt p => rfl
    | setClobber clobber => rfl
    | undo => exact if_pos ((position_hearAll_moved e _).symm.trans position)
    | redo => exact if_pos ((position_hearAll_moved e _).symm.trans position)
    | seek index =>
      rw [news] at position ⊢
      by_cases within : index ≤ e.history.size
      · rw [if_pos within] at position ⊢
        exact if_pos ((position_hearAll_moved e _).symm.trans position)
      · exact if_neg within
    | execute c =>
      -- the cursor is behind the new command
      have further : e.history.position + 1 ≠ e.history.position := Nat.succ_ne_self _
      rw [news] at position ⊢
      by_cases last : e.history.undone.isEmpty = true
      · rw [if_pos last] at position
        exact absurd position further
      · rw [if_neg last] at position ⊢
        by_cases clobber : e.history.clobber = true
        · rw [if_pos clobber] at position
          exact absurd position further
        · exact if_neg clobber

/-- Whatever is asked of an editor, and in whatever order: an observer who knows where the cursor is and how many
    commands there are still knows it after each request, from the events alone, of which each can come next when it is
    heard. A request that is refused or moves nothing causes no event, and a search of a place at most one. -/
theorem observers_exact (e : Editor) :
    (∀ rs, (e.answerAll rs).events = (e.newsAll rs).reverse ++ e.events ∧
      e.sight.hearAll (e.newsAll rs) = (e.answerAll rs).sight ∧ e.sight.ConfirmsAll (e.newsAll rs)) ∧
    (∀ r, (e.answer r).events = (e.news r).reverse ++ e.events ∧ (e.news r = [] ↔ (e.answer r).sight = e.sight)) ∧
    (∀ c err, e.execute c = .error err → e.news (.execute c) = []) ∧
    (∀ index err, e.seek index = .error err → e.news (.seek index) = []) ∧
    ∀ index, (e.news (.seek index)).length ≤ 1 := by
  refine ⟨fun rs => ?_,fun r => ⟨(told_answer e r).events,news_eq_nil_iff⟩,fun c err refused => ?_,
    fun index err refused => ?_,fun index => ?_⟩
  · obtain ⟨events,confirmed,heard⟩ := told_answerAll e rs
    exact ⟨events,heard,confirmed⟩
  · rw [news_eq_nil_iff,answer,refused]
  · rw [news_eq_nil_iff,answer,refused]
  · rw [news,moved]
    split
    · split <;> simp
    · exact Nat.zero_le 1

/-- Commands executed, taken back all at once, refused in the middle and then executed there. -/
theorem observers_exact_clobbering :
    let flag : Command := .edit (.setFinal 0 true false)
    let rs : List Request := [.execute flag,.execute flag,.execute flag,.seek 0,.redo,.execute flag,.seek 4,
      .setClobber true,.execute flag,.redo,.undo]
    let e := opened .initial false
    e.newsAll rs = [.executed 1,.executed 2,.executed 3,.positionChanged 3 0,.positionChanged 0 1,.truncated 1 2,
      .executed 2,.positionChanged 2 1] ∧
    e.sight = ⟨0,0⟩ ∧ (e.answerAll rs).sight = ⟨1,2⟩ ∧ (e.answerAll rs).events = (e.newsAll rs).reverse ∧
    e.sight.hearAll (e.newsAll rs) = (e.answerAll rs).sight := by
  intro flag rs e
  obtain ⟨events,heard,_⟩ := (observers_exact e).1 rs
  exact ⟨by decide,rfl,by decide,events.trans (List.append_nil _),heard⟩

end Editor
end StepwiseAutomata
