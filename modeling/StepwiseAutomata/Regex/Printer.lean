import StepwiseAutomata.Regex.Basic

namespace StepwiseAutomata.Regex

def parenthesised (needed : Bool) (cs : List Char) : List Char :=
  if needed then '(' :: cs ++ [')'] else cs

/-- An operand of a weaker operator than the one around it is put in parentheses. -/
def needsParentheses (parent : Operator) (r : Regex) : Bool :=
  r.operator.precedence < parent.precedence

mutual
/-- The characters of the written form. -/
def chars : Regex → List Char
  | .char c => [c]
  | .quant q r => parenthesised (needsParentheses q.operator r) (chars r) ++ [q.sign]
  | .seq rs => seqChars rs
  | .choice [] => []
  | .choice (r :: rs) => parenthesised (needsParentheses .choice r) (chars r) ++ choiceChars rs
/-- Factors, one after the other. -/
def seqChars : List Regex → List Char
  | [] => []
  | r :: rs => parenthesised (needsParentheses .sequence r) (chars r) ++ seqChars rs
/-- Further alternatives, each after a bar. -/
def choiceChars : List Regex → List Char
  | [] => []
  | r :: rs => '|' :: parenthesised (needsParentheses .choice r) (chars r) ++ choiceChars rs
end

instance : ToString Regex := ⟨fun r => String.ofList r.chars⟩

/-- The written form, marked as that of an expression. -/
def inspect (r : Regex) : String := s!"RegexNode({r})"

end StepwiseAutomata.Regex
