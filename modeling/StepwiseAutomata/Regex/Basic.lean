/-!
Regular expressions over characters: a character, a quantified expression, a sequence or a choice of
expressions. `sequenceOf` and `choiceOf` keep trees flat: an operand that is itself a sequence (a choice)
is spliced into the sequence (choice) around it, and a single operand stands for itself.
-/
namespace StepwiseAutomata

/-- The operators written after their operand. -/
inductive Quantifier where
  | star
  | plus
  | option
  deriving DecidableEq

/-- What stands at the top of an expression; `leaf` is a character alone. -/
inductive Operator where
  | leaf
  | star
  | plus
  | option
  | sequence
  | choice
  deriving DecidableEq

/-- A regular expression. The character `ε` denotes the empty word. -/
inductive Regex where
  | char (c : Char)
  | quant (q : Quantifier) (r : Regex)
  | seq (rs : List Regex)
  | choice (rs : List Regex)

namespace Quantifier

def operator : Quantifier → Operator
  | star => .star
  | plus => .plus
  | option => .option

/-- The sign written after the operand. -/
def sign : Quantifier → Char
  | star => '*'
  | plus => '+'
  | option => '?'

end Quantifier

namespace Operator

def name : Operator → String
  | leaf => "None"
  | star => "Star"
  | plus => "Plus"
  | option => "Option"
  | sequence => "Sequence"
  | choice => "Choice"

/-- The place of an operator in the order of expressions. -/
def rank : Operator → Nat
  | leaf => 0
  | star => 1
  | plus => 2
  | option => 3
  | sequence => 4
  | choice => 5

/-- Binding strength in writing; a higher value binds tighter. -/
def precedence : Operator → Nat
  | leaf => 3
  | star | plus | option => 2
  | sequence => 1
  | choice => 0

def quantifier? : Operator → Option Quantifier
  | star => some .star
  | plus => some .plus
  | option => some .option
  | _ => none

def isUnary (op : Operator) : Bool := op.quantifier?.isSome

theorem rank_injective {a b : Operator} (h : a.rank = b.rank) : a = b := by
  cases a <;> cases b <;> simp_all [rank]

@[simp] theorem quantifier?_operator (q : Quantifier) : q.operator.quantifier? = some q := by
  cases q <;> rfl

end Operator

/-- The character that denotes the empty word. -/
def epsilonChar : Char := 'ε'

namespace Regex

/-- Induction on an expression, with the hypothesis for every operand of a list. -/
@[elab_as_elim, induction_eliminator]
theorem induction {motive : Regex → Prop} (char : ∀ c, motive (.char c))
    (quant : ∀ q r, motive r → motive (.quant q r))
    (seq : ∀ rs, (∀ r ∈ rs, motive r) → motive (.seq rs))
    (choice : ∀ rs, (∀ r ∈ rs, motive r) → motive (.choice rs)) : ∀ r, motive r
  | .char c => char c
  | .quant q r => quant q r (induction char quant seq choice r)
  | .seq rs => seq rs fun r _ => induction char quant seq choice r
  | .choice rs => choice rs fun r _ => induction char quant seq choice r

def epsilon : Regex := .char epsilonChar

def operator : Regex → Operator
  | .char _ => .leaf
  | .quant q _ => q.operator
  | .seq _ => .sequence
  | .choice _ => .choice

/-- The character of a character, or of a quantifier directly on a character. -/
def charValue : Regex → Option Char
  | .char c => some c
  | .quant _ (.char c) => some c
  | _ => none

def isSingleChar (r : Regex) : Bool := r.charValue.isSome

/-- The operand expressions; a quantifier directly on a character counts as having none. -/
def operands : Regex → List Regex
  | .char _ => []
  | .quant _ (.char _) => []
  | .quant _ r => [r]
  | .seq rs => rs
  | .choice rs => rs

/-- What a quantifier applies to. -/
def operand : Regex → Option Regex
  | .quant _ r => some r
  | _ => none

def isEpsilon : Regex → Bool
  | .char c => c == epsilonChar
  | _ => false

/-- A character alone, other than `ε`. -/
def isSymbol : Regex → Bool
  | .char c => c != epsilonChar
  | _ => false

/-- A tree with an operator at its top. -/
def isCompound : Regex → Bool
  | .char _ => false
  | _ => true

mutual
/-- Whether the empty word is in the language of the expression. -/
def nullable : Regex → Bool
  | .char c => c == epsilonChar
  | .quant .plus r => nullable r
  | .quant _ _ => true
  | .seq rs => allNullable rs
  | .choice rs => anyNullable rs
def allNullable : List Regex → Bool
  | [] => true
  | r :: rs => nullable r && allNullable rs
def anyNullable : List Regex → Bool
  | [] => false
  | r :: rs => nullable r || anyNullable rs
end

mutual
/-- The number of operators in the tree. -/
def operatorCount : Regex → Nat
  | .char _ => 0
  | .quant _ r => operatorCount r + 1
  | .seq rs => operatorTotal rs + 1
  | .choice rs => operatorTotal rs + 1
def operatorTotal : List Regex → Nat
  | [] => 0
  | r :: rs => operatorCount r + operatorTotal rs
end

theorem allNullable_eq_all (rs : List Regex) : allNullable rs = rs.all nullable := by
  induction rs with
  | nil => simp [allNullable]
  | cons r rs ih => simp [allNullable,ih]

theorem anyNullable_eq_any (rs : List Regex) : anyNullable rs = rs.any nullable := by
  induction rs with
  | nil => simp [anyNullable]
  | cons r rs ih => simp [anyNullable,ih]

theorem operatorTotal_append (rs ss : List Regex) :
    operatorTotal (rs ++ ss) = operatorTotal rs + operatorTotal ss := by
  induction rs with
  | nil => simp [operatorTotal]
  | cons r rs ih => simp [operatorTotal,ih,Nat.add_assoc]

theorem isCompound_eq_false_iff {r : Regex} : r.isCompound = false ↔ ∃ c, r = .char c := by
  cases r <;> simp [isCompound]

/-- The operands that a sequence around `r` takes over from it. -/
def factors : Regex → List Regex
  | .seq rs => rs
  | r => [r]

/-- The operands that a choice around `r` takes over from it. -/
def alternatives : Regex → List Regex
  | .choice rs => rs
  | r => [r]

/-- The expression for an operand list: the empty list is `ε`, a single operand stands for itself. -/
def collapse (build : List Regex → Regex) : List Regex → Regex
  | [] => epsilon
  | [r] => r
  | rs => build rs

def sequenceOf (rs : List Regex) : Regex := collapse .seq (rs.flatMap factors)

def choiceOf (rs : List Regex) : Regex := collapse .choice (rs.flatMap alternatives)

def star (r : Regex) : Regex := .quant .star r

/-- Why an operator cannot be applied to the operands given. -/
inductive BuildError where
  | notUnary (op : Operator)
  | noOperands
  | leafOperator
  | manyOperands
  deriving DecidableEq

def BuildError.message : BuildError → String
  | notUnary op => op.name ++ " is not a unary operator"
  | noOperands => "no operands passed"
  | leafOperator => "NONE only allowed for single character expressions"
  | manyOperands => "multiple operands passed for a unary operator"

def unary (op : Operator) (r : Regex) : Except BuildError Regex :=
  match op.quantifier? with
  | some q => .ok (.quant q r)
  | none => .error (.notUnary op)

/-- Applies an operator to operands: exactly one for a quantifier, at least one for a list operator. -/
def compound : Operator → List Regex → Except BuildError Regex
  | _,[] => .error .noOperands
  | .leaf,_ => .error .leafOperator
  | .sequence,rs => .ok (sequenceOf rs)
  | .choice,rs => .ok (choiceOf rs)
  | op,[r] => unary op r
  | _,_ => .error .manyOperands

end Regex
end StepwiseAutomata
