import StepwiseAutomata.Command

/-!
A line of executed commands with a cursor in it. The commands before the cursor are applied, those after it
have been taken back.
-/
namespace StepwiseAutomata

structure History where
  /-- The commands before the cursor, latest first. -/
  done : List Command := []
  /-- The commands after the cursor, next first. -/
  undone : List Command := []
  /-- Whether a command may be executed in the middle, in place of the commands after the cursor. -/
  clobber : Bool := false

/-- What an observer of a history is told. -/
inductive Event where
  | executed (position : Nat)
  | positionChanged (before after : Nat)
  | truncated (size removed : Nat)
  deriving DecidableEq

namespace History

variable (h : History)

def position : Nat := h.done.length

def size : Nat := h.done.length + h.undone.length

def commands : List Command := h.done.reverse ++ h.undone

def isEmpty : Bool := h.commands.isEmpty

/-- The command that would be taken back next. -/
def last? : Option Command := h.done.head?

/-- The command that would be applied again next. -/
def next? : Option Command := h.undone.head?

end History
end StepwiseAutomata
