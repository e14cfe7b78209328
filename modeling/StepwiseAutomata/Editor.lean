import StepwiseAutomata.Automaton.Snapshot
import StepwiseAutomata.History
import StepwiseAutomata.Note

/-!
An automaton with its history. Commands are executed, taken back and applied again; the events and the notes
of it are gathered until they are fetched.
-/
namespace StepwiseAutomata

structure Editor where
  automaton : Automaton
  history : History
  /-- What observers have not been told yet, latest first. -/
  events : List Event := []
  /-- What has not been written to the log yet, latest first. -/
  notes : List Note := []

namespace Editor

def note (e : Editor) (n : Note) : Editor := { e with notes := n :: e.notes }

def noteAll (e : Editor) (ns : List Note) : Editor := { e with notes := ns.reverse ++ e.notes }

def notify (e : Editor) (ev : Event) : Editor := { e with events := ev :: e.events }

/-- Makes a change to the automaton that is not part of the history. -/
def change (e : Editor) (c : Change) : Editor :=
  { e.noteAll (e.automaton.notes c) with automaton := e.automaton.apply c }

def changeAll (e : Editor) (cs : List Change) : Editor := cs.foldl change e

/-- An editor of the automaton that a picture shows, with an empty history. -/
def ofSnapshot [Ids] (s : Snapshot) (clobber : Bool) : Except Error Editor :=
  s.check.map fun (start,ts) =>
    ({ automaton := s.base start,history := { clobber } } : Editor).changeAll (s.changes start ts)

/-- Drops the commands after the cursor. -/
def truncate (e : Editor) : Editor :=
  let position := e.history.position
  let removed := e.history.undone.length
  let e := e.note (.clobbering removed position)
  { e with history.undone := [] }.notify (.truncated position removed)

/-- Applies a command and puts it at the end of a history whose cursor is there. -/
def append (e : Editor) (c : Command) : Editor :=
  let e := (e.note (.executing c)).changeAll c.forward
  let e := { e with history.done := c :: e.history.done }
  e.notify (.executed e.history.position)

/-- Executes a new command; in the middle of the history only if it may be clobbered. -/
def execute (e : Editor) (c : Command) : Except Error Editor :=
  if e.history.undone.isEmpty then .ok (e.append c)
  else if e.history.clobber then .ok (e.truncate.append c)
  else .error (.notAtHistoryEnd e.history.position e.history.size)

/-- Applies the command after the cursor, if there is one. -/
def stepForward (e : Editor) : Editor :=
  match e.history.undone with
  | [] => e
  | c :: undone =>
    let e := (e.note (.redoing e.history.position c)).changeAll c.forward
    { e with history.done := c :: e.history.done,history.undone := undone }

/-- Takes back the command before the cursor, if there is one. -/
def stepBackward (e : Editor) : Editor :=
  match e.history.done with
  | [] => e
  | c :: done =>
    let e := (e.note (.undoing done.length c)).changeAll c.backward
    { e with history.done := done,history.undone := c :: e.history.undone }

/-- Tells observers of a move of the cursor away from `position`, if it did move. -/
def notifyMoved (e : Editor) (position : Nat) : Editor :=
  if e.history.position = position then e else e.notify (.positionChanged position e.history.position)

def redo (e : Editor) : Editor := e.stepForward.notifyMoved e.history.position

def undo (e : Editor) : Editor := e.stepBackward.notifyMoved e.history.position

/-- Takes `n` steps. -/
def steps (step : Editor → Editor) : Nat → Editor → Editor
  | 0,e => e
  | n + 1,e => steps step n (step e)

/-- Moves the cursor to `index`. -/
def seek (e : Editor) (index : Nat) : Except Error Editor :=
  let position := e.history.position
  if e.history.size < index then .error (.outOfRange index e.history.size)
  else
    let e := steps stepForward (index - position) e
    let e := steps stepBackward (position - index) e
    .ok (e.notifyMoved position)

def setClobber (e : Editor) (clobber : Bool) : Editor := { e with history.clobber := clobber }

end Editor
end StepwiseAutomata
