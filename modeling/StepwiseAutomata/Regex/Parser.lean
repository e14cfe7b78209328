import StepwiseAutomata.Regex.Basic
import StepwiseAutomata.Text

/-!
Reading an expression from text. A choice is one or more sequences with bars between them, a sequence is one
or more factors, and a factor is a literal or a parenthesised choice, followed by any number of quantifiers.
Blanks may stand anywhere and mean nothing.
-/
namespace StepwiseAutomata.Regex

/-- Why a text is not an expression; positions count characters from zero. -/
inductive ParseError where
  | operatorOnEmptyWord (q : Quantifier) (position : Nat)
  | emptyChoiceOperand (position : Nat)
  | unclosedParenthesis (position : Nat)
  | strayClosingParenthesis (position : Nat)
  | emptyParentheses (position : Nat)
  deriving DecidableEq

def ParseError.message : ParseError → String
  | operatorOnEmptyWord q p => s!"{q.operator.name} operator on empty word at position {p}"
  | emptyChoiceOperand p => s!"CHOICE operator on empty word at position {p}"
  | unclosedParenthesis p => s!"unclosed parenthesis found at position {p}"
  | strayClosingParenthesis p => s!"stray closing parenthesis found at position {p}"
  | emptyParentheses p => s!"parentheses at position {p} enclose nothing"

/-- What a character of the text stands for. -/
inductive Token where
  | opening
  | closing
  | bar
  | quantifier (q : Quantifier)
  | blank
  | literal (c : Char)
  deriving DecidableEq

def Token.ofChar (c : Char) : Token :=
  match c with
  | '(' => .opening
  | ')' => .closing
  | '|' => .bar
  | '*' => .quantifier .star
  | '+' => .quantifier .plus
  | '?' => .quantifier .option
  | c => if Text.isBlank c then .blank else .literal c

/-- Whether `depth + 1` parentheses that are open before the text get closed in it. -/
def closes : (depth : Nat) → List Char → Bool
  | _,[] => false
  | depth,c :: cs =>
    match Token.ofChar c, depth with
    | .opening,_ => closes (depth + 1) cs
    | .closing,0 => true
    | .closing,depth + 1 => closes depth cs
    | _,_ => closes depth cs

/-- What has been read of a group: the finished alternatives and the factors of the one being read, each
    latest first. -/
structure Group where
  alternatives : List Regex := []
  factors : List Regex := []

namespace Group

def push (g : Group) (r : Regex) : Group := { g with factors := r :: g.factors }

/-- Applies a quantifier to the latest factor. -/
def quantify? (g : Group) (q : Quantifier) : Option Group :=
  match g.factors with
  | [] => none
  | r :: rs => some { g with factors := .quant q r :: rs }

/-- Ends the alternative being read. -/
def split? (g : Group) : Option Group :=
  match g.factors with
  | [] => none
  | rs => some { alternatives := sequenceOf rs.reverse :: g.alternatives }

/-- The expression of a whole group that ends at `position`; `none` for a group without content. -/
def finish (g : Group) (position : Nat) : Except ParseError (Option Regex) :=
  match g.alternatives, g.factors with
  | [],[] => .ok none
  | [],rs => .ok (some (sequenceOf rs.reverse))
  | _,[] => .error (.emptyChoiceOperand position)
  | alts,rs => .ok (some (choiceOf (sequenceOf rs.reverse :: alts).reverse))

end Group

/-- Reads the text from `position` on, inside the groups `outer`, each with the position of the parenthesis
    after it. A parenthesis opens a group only if it is closed further on. -/
def read (position : Nat) (outer : List (Group × Nat)) (g : Group) :
    List Char → Except ParseError (Option Regex)
  | [] =>
    match outer with
    | [] => g.finish position
    | (_,opened) :: _ => .error (.unclosedParenthesis opened)
  | c :: cs =>
    match Token.ofChar c with
    | .opening =>
      if closes 0 cs then read (position + 1) ((g,position) :: outer) {} cs
      else .error (.unclosedParenthesis position)
    | .closing =>
      match outer with
      | [] => .error (.strayClosingParenthesis position)
      | (around,opened) :: outer =>
        match g.finish position with
        | .error e => .error e
        | .ok none => .error (.emptyParentheses opened)
        | .ok (some r) => read (position + 1) outer (around.push r) cs
    | .bar =>
      match g.split? with
      | none => .error (.emptyChoiceOperand position)
      | some g => read (position + 1) outer g cs
    | .quantifier q =>
      match g.quantify? q with
      | none => .error (.operatorOnEmptyWord q position)
      | some g => read (position + 1) outer g cs
    | .blank => read (position + 1) outer g cs
    | .literal c => read (position + 1) outer (g.push (.char c)) cs

/-- The expression that a text denotes; `none` for a text of blanks. -/
def parse (text : String) : Except ParseError (Option Regex) := read 0 [] {} text.toList

end StepwiseAutomata.Regex
