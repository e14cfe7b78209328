import StepwiseAutomata.Proofs.Degrees
import StepwiseAutomata.Proofs.RegexLanguage

/-!
Which bodies of iterations can be read where they do not belong, once an expression has been broken down at the least
isolation. A loop that is left open at a state lets runs go round that begin or end at this state.
-/
namespace StepwiseAutomata.Regex
open scoped Computability

attribute [local instance] Ids.endless

/-- The body of an iteration. -/
def iterated? : Regex → Option Regex
  | .quant .star r => some r
  | .quant .plus r => some r
  | _ => none

theorem eq_of_iterated? {r body : Regex} (iterated : r.iterated? = some body) :
    r = .quant .star body ∨ r = .quant .plus body := by
  unfold iterated? at iterated
  split at iterated
  · exact .inl (by cases iterated; rfl)
  · exact .inr (by cases iterated; rfl)
  · cases iterated

mutual
/-- What is iterated at an end of the expression: the body of `*`, which is then cut off, and one after the other the
    bodies of `+`. -/
def leaks (e : End) : Regex → List Regex
  | .quant .star r => [r]
  | .quant .plus r => r :: leaks e r
  | .seq rs => outerLeaks e rs
  | _ => []
def outerLeaks (e : End) : List Regex → List Regex
  | [] => []
  | r :: rs => if e = .source ∨ rs = [] then leaks e r else outerLeaks e rs
end

/-- The bodies that can be read before a word: a `*` at the beginning leads back to the start state, so that what is
    iterated at the end of its body can be begun with. -/
def headLeaks (r : Regex) : List Regex :=
  match r.factors with
  | .quant .star body :: _ => leaks .target body
  | _ => []

/-- The bodies that can be read after a word: a `*` at the end leads back from the final state, unless an iteration
    before it keeps them apart. -/
def tailLeaks (r : Regex) : List Regex :=
  match r.factors.reverse with
  | .quant .star body :: before => if (before.head?.bind iterated?).isSome then [] else leaks .source body
  | _ => []

/-- The words accepted when bodies can be read any number of times, the first last, before the words of a language, and
    others after them. -/
def leaked (heads tails : List Regex) (l : Language Char) : Language Char :=
  (heads.reverse.map (·.language∗)).prod * l * (tails.map (·.language∗)).prod

/-- The words accepted once the expression is broken down. -/
def leaking (r : Regex) : Language Char := leaked r.headLeaks r.tailLeaks r.language

@[simp] theorem leaked_nil (l : Language Char) : leaked [] [] l = l := by simp [leaked]

/-- What leaks next is read closest to the words. -/
theorem leaked_append {first : List Regex} (short : first.length ≤ 1) (heads last tails : List Regex)
    (l : Language Char) : leaked (first ++ heads) (last ++ tails) l =
      leaked heads tails ((first.map (·.language∗)).prod * l * (last.map (·.language∗)).prod) := by
  have same : first.reverse = first := by
    cases first with
    | nil => rfl
    | cons r rest =>
      obtain rfl := List.eq_nil_of_length_eq_zero (Nat.le_zero.mp (Nat.le_of_succ_le_succ short))
      rfl
  simp only [leaked,List.reverse_append,List.map_append,List.prod_append,same,mul_assoc]

/-- No word is lost. -/
theorem language_le_leaking (r : Regex) : r.language ≤ r.leaking := by
  have nil (rs : List Regex) : 1 ≤ (rs.map (·.language∗)).prod := by
    induction rs with
    | nil => exact le_refl 1
    | cons r rs ih =>
      rw [List.map_cons,List.prod_cons]
      calc (1 : Language Char) = 1 * 1 := (one_mul 1).symm
        _ ≤ r.language∗ * (rs.map (·.language∗)).prod := mul_le_mul' one_le_kstar ih
  calc r.language = 1 * r.language * 1 := by rw [one_mul,mul_one]
    _ ≤ r.leaking := mul_le_mul' (mul_le_mul' (nil _) le_rfl) (nil _)

/-- The words that `ε` does not occur in. -/
def unmarked : Language Char := {w | epsilonChar ∉ w}

theorem mul_le_unmarked {l m : Language Char} (first : l ≤ unmarked) (second : m ≤ unmarked) : l * m ≤ unmarked := by
  rintro _ ⟨u,member,v,member',rfl⟩ marked
  rcases List.mem_append.mp marked with here | there
  · exact first member here
  · exact second member' there

theorem kstar_le_unmarked {l : Language Char} (each : l ≤ unmarked) : l∗ ≤ unmarked := by
  rintro _ ⟨words,rfl,members⟩ marked
  obtain ⟨w,listed,here⟩ := List.mem_flatten.mp marked
  exact each (members w listed) here

theorem prod_le_unmarked {ls : List (Language Char)} (each : ∀ l ∈ ls, l ≤ unmarked) : ls.prod ≤ unmarked := by
  induction ls with
  | nil =>
    rintro _ rfl
    exact List.not_mem_nil
  | cons l ls ih =>
    obtain ⟨first,rest⟩ := List.forall_mem_cons.mp each
    rw [List.prod_cons]
    exact mul_le_unmarked first (ih rest)

theorem language_le_unmarked (r : Regex) : r.language ≤ unmarked := by
  induction r with
  | char c =>
    rw [language_char]
    by_cases same : c = epsilonChar
    · rw [if_pos same]
      rintro _ rfl
      exact List.not_mem_nil
    · rw [if_neg same]
      rintro _ rfl marked
      exact same (List.mem_singleton.mp marked).symm
  | quant q r ih =>
    rw [language_quant]
    cases q with
    | star => exact kstar_le_unmarked ih
    | plus => exact mul_le_unmarked ih (kstar_le_unmarked ih)
    | option =>
      rintro w (rfl | member)
      · exact List.not_mem_nil
      · exact ih member
  | seq rs ih =>
    rw [language_seq]
    refine prod_le_unmarked fun l member => ?_
    obtain ⟨r,listed,rfl⟩ := List.mem_map.mp member
    exact ih r listed
  | choice rs ih =>
    rw [language_choice]
    intro w member
    obtain ⟨r,listed,member⟩ := mem_languageSum.mp member
    exact ih r listed member

theorem leaking_le_unmarked (r : Regex) : r.leaking ≤ unmarked := by
  have bodies (rs : List Regex) : (rs.map (·.language∗)).prod ≤ unmarked := by
    refine prod_le_unmarked fun l member => ?_
    obtain ⟨r,_,rfl⟩ := List.mem_map.mp member
    exact kstar_le_unmarked (language_le_unmarked r)
  exact mul_le_unmarked (mul_le_unmarked (bodies _) (language_le_unmarked r)) (bodies _)

theorem outerLeaks_cons (r : Regex) (rs : List Regex) : outerLeaks .source (r :: rs) = leaks .source r := by
  simp [outerLeaks]

theorem outerLeaks_concat (rs : List Regex) (r : Regex) : outerLeaks .target (rs ++ [r]) = leaks .target r := by
  induction rs with
  | nil => simp [outerLeaks]
  | cons s rs ih => simpa [outerLeaks] using ih

theorem headLeaks_seq {r : Regex} (other : r.operator ≠ .sequence) (rs : List Regex) :
    (Regex.seq (r :: rs)).headLeaks = r.headLeaks := by
  cases r with
  | seq _ => exact absurd rfl other
  | quant q r => cases q <;> rfl
  | _ => rfl

/-- An iteration before the last factor keeps it apart. -/
theorem tailLeaks_of_iterated {s : Regex} (iterated : s.iterated?.isSome = true) (init : List Regex) (r : Regex) :
    (Regex.seq (init ++ [s] ++ [r])).tailLeaks = [] := by
  have reversed : (Regex.seq (init ++ [s] ++ [r])).factors.reverse = r :: s :: init.reverse := by simp [factors]
  unfold tailLeaks
  rw [reversed]
  split
  · rename_i body before same
    rw [← (List.cons.inj same).2]
    exact if_pos iterated
  · rfl

theorem tailLeaks_seq {s r : Regex} (plain : s.iterated? = none) (other : r.operator ≠ .sequence) (init : List Regex) :
    (Regex.seq (init ++ [s] ++ [r])).tailLeaks = r.tailLeaks := by
  have reversed : (Regex.seq (init ++ [s] ++ [r])).factors.reverse = r :: s :: init.reverse := by simp [factors]
  have single : r.factors.reverse = [r] := by
    cases r with
    | seq _ => exact absurd rfl other
    | _ => rfl
  unfold tailLeaks
  rw [reversed,single]
  cases r with
  | quant q r => cases q <;> simp [plain]
  | _ => rfl

end StepwiseAutomata.Regex
