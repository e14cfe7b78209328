import StepwiseAutomata.Regex.Order

namespace StepwiseAutomata.Regex

/-- The quantifier that means the same as `outer` applied to `inner`, where there is one. -/
def nest : (outer inner : Quantifier) → Quantifier
  | .star,_ => .star
  | .plus,.plus => .plus
  | .plus,_ => .star
  | .option,.option => .option
  | .option,_ => .star

/-- A quantifier over an operand: what accepts the empty word needs no `?`, and nested quantifiers collapse. -/
def rewriteQuant (q : Quantifier) (r : Regex) : Regex :=
  if q = .option && r.nullable then r
  else match r with
    | .quant p s => .quant (nest q p) s
    | r => .quant q r

/-- The quantifier for two neighbouring iterations of one operand, where one of them suffices. -/
def absorb? : (left right : Quantifier) → Option Quantifier
  | .star,.star | .star,.option | .option,.star => some .star
  | .star,.plus | .option,.plus | .plus,.star | .plus,.option => some .plus
  | _,_ => none

def mergePair? : (left right : Regex) → Option Regex
  | .quant p r,.quant q s => if r = s then (absorb? p q).map (.quant · r) else none
  | _,_ => none

/-- Merges each factor with the last one kept, from left to right; `kept` has the latest first. -/
def mergeForward (kept : List Regex) : List Regex → List Regex
  | [] => kept.reverse
  | r :: rs =>
    match kept with
    | [] => mergeForward [r] rs
    | last :: rest =>
      match mergePair? last r with
      | some m => mergeForward (m :: rest) rs
      | none => mergeForward (r :: last :: rest) rs

/-- Merges each factor with the next one kept, from right to left. -/
def mergeBackward : List Regex → List Regex
  | [] => []
  | r :: rs =>
    match mergeBackward rs with
    | [] => [r]
    | next :: rest =>
      match mergePair? r next with
      | some m => m :: rest
      | none => r :: next :: rest

def rewriteSequence (rs : List Regex) : Regex :=
  sequenceOf (mergeBackward (mergeForward [] ((rs.flatMap factors).filter fun r => !r.isEpsilon)))

/-- A choice keeps the first of equal operands. -/
def rewriteChoice (rs : List Regex) : Regex := choiceOf (rs.flatMap alternatives).eraseDups

/-- Simplifies the uppermost `depth` levels of the tree. -/
def optimiseToDepth : (depth : Nat) → Regex → Regex
  | 0,r => r
  | _ + 1,.char c => .char c
  | depth + 1,.quant q r => rewriteQuant q (optimiseToDepth depth r)
  | depth + 1,.seq rs => rewriteSequence (rs.map (optimiseToDepth depth))
  | depth + 1,.choice rs => rewriteChoice (rs.map (optimiseToDepth depth))

mutual
/-- Simplifies the whole tree. -/
def optimise : Regex → Regex
  | .char c => .char c
  | .quant q r => rewriteQuant q (optimise r)
  | .seq rs => rewriteSequence (optimiseEach rs)
  | .choice rs => rewriteChoice (optimiseEach rs)
def optimiseEach : List Regex → List Regex
  | [] => []
  | r :: rs => optimise r :: optimiseEach rs
end

theorem optimiseEach_eq_map (rs : List Regex) : optimiseEach rs = rs.map optimise := by
  induction rs with
  | nil => simp [optimiseEach]
  | cons r rs ih => simp [optimiseEach,ih]

end StepwiseAutomata.Regex
