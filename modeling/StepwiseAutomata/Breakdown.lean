import StepwiseAutomata.Workbench

namespace StepwiseAutomata

/-- The arc, unless a transition of the automaton is equal to it. -/
def Automaton.unlessPresent (a : Automaton) (arc : Arc) : List Arc := if a.hasArc arc then [] else [arc]

namespace Breakdown

variable (a : Automaton) (t : Transition)

/-- The arcs of a path from `source` to `target` through `states`. -/
def chain (source : Nat) (states : List Nat) (target : Nat) (labels : List Regex) : List Arc :=
  (((source :: states).zip (states ++ [target])).zip labels).map fun ((s,t),r) => ⟨s,t,r⟩

/-- The least isolation that is safe: a side needs it if another transition leaves the source, or enters the
    target. -/
def optimalIsolation : Isolation where
  atSource := (a.outgoing t.source).any (·.id != t.id)
  atTarget := (a.ingoing t.target).any (·.id != t.id)

/-- A loop between the ends themselves. For `*` the way forward is empty and the body leads back; for `+` the
    body leads forward and the way back is empty. -/
def directLoop (isStar : Bool) (body : Regex) : List Arc :=
  let (source,target) := if isStar then (t.source,t.target) else (t.target,t.source)
  a.unlessPresent ⟨source,target,.epsilon⟩ ++ [⟨target,source,body⟩]

/-- A loop between `first` and `last`, entered from the source and left for the target on `ε` where these are
    new states; `*` may also pass it by. -/
def isolatedLoop (level : Isolation) (first last : Nat) (isStar : Bool) (body : Regex) : List Arc :=
  (if level.atSource then [⟨t.source,first,.epsilon⟩] else []) ++
    (if level.atTarget then [⟨last,t.target,.epsilon⟩] else []) ++
    (if isStar then a.unlessPresent ⟨t.source,t.target,.epsilon⟩ else []) ++
    [⟨last,first,.epsilon⟩,⟨first,last,body⟩]

/-- Removes the transition, then adds the states and the transitions that replace it. -/
def command (states : List Nat) (added : List Transition) : Command :=
  .ofEdits s!"Break down {t.label} on {t.source} -> {t.target}"
    (.removeTransition t :: states.map (fun s => .addState ⟨s,false⟩) ++ added.map .addTransition)

end Breakdown

namespace Builder

open Breakdown

variable (t : Transition)

def requirePresent : Builder Unit := do
  if (← automaton).transition? t.id = some t then return () else throw (.foreignTransition t.id)

variable [Ids]

/-- Puts new states and arcs in place of the transition. -/
def replace (states : List Nat) (arcs : List Arc) : Builder Command :=
  return command t states (← newTransitions arcs)

/-- A choice becomes parallel transitions. -/
def choice : Builder Command := do
  requirePresent t
  match t.label with
  | .choice rs => replace t [] (rs.map fun r => ⟨t.source,t.target,r⟩)
  | r => throw (.wrongBreakdown .choice r)

/-- A sequence becomes a path through new states. -/
def sequence : Builder Command := do
  requirePresent t
  match t.label with
  | .seq rs =>
    let states ← newStates (rs.length - 1)
    replace t states (chain t.source states t.target rs)
  | r => throw (.wrongBreakdown .sequence r)

/-- The loop that replaces an iteration of `body`. -/
def loop (level : Isolation) (isStar : Bool) (body : Regex) : Builder Command := do
  let a ← automaton
  let required := optimalIsolation a t
  if level.covers required then
    note (.breakingIteration t.label level)
    match level with
    | ⟨false,false⟩ => replace t [] (directLoop a t isStar body)
    | ⟨true,false⟩ =>
      let first ← newState
      replace t [first] (isolatedLoop a t level first t.target isStar body)
    | ⟨false,true⟩ =>
      let last ← newState
      replace t [last] (isolatedLoop a t level t.source last isStar body)
    | ⟨true,true⟩ =>
      let first ← newState
      let last ← newState
      replace t [first,last] (isolatedLoop a t level first last isStar body)
  else throw (.insufficientIsolation level required)

/-- `*` and `+` become a loop, isolated as `level` says, which has to be enough. -/
def iteration (level : Isolation) : Builder Command := do
  requirePresent t
  match t.label with
  | .quant .star r => loop t level true r
  | .quant .plus r => loop t level false r
  | r => throw (.wrongBreakdown .iteration r)

/-- `?` becomes its operand in parallel with `ε`. -/
def option : Builder Command := do
  requirePresent t
  match t.label with
  | .quant .option r =>
    let a ← automaton
    replace t [] (⟨t.source,t.target,r⟩ :: a.unlessPresent ⟨t.source,t.target,.epsilon⟩)
  | r => throw (.wrongBreakdown .option r)

/-- The breakdown that fits the label; `none` for a character. -/
def breakdown (policy : IsolationPolicy) : Builder (Option Command) := do
  match t.label with
  | .char _ => return none
  | .choice _ => some <$> choice t
  | .seq _ => some <$> sequence t
  | .quant .option _ => some <$> option t
  | .quant _ _ =>
    match policy with
    | .optimal => some <$> iteration t (optimalIsolation (← automaton) t)
    | .full => some <$> iteration t .full

end Builder
end StepwiseAutomata
