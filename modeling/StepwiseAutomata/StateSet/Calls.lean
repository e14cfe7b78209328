import StepwiseAutomata.StateSet
import StepwiseAutomata.StateSet.Bits

namespace StepwiseAutomata

/-- A way to keep sets of ids. What can fail gives an option. -/
structure SetOps (σ : Type) where
  withCapacity (capacity : Nat) : σ
  singleton? (x : UInt32) (capacity : Nat) : Option σ
  ofList? (xs : List UInt32) : Option σ
  /-- Inserts an id and tells whether it was new. -/
  add? (s : σ) (x : UInt32) : Option (Bool × σ)
  erase? (s : σ) (x : UInt32) : Option σ
  union (s t : σ) : σ
  contains (s : σ) (x : UInt32) : Bool
  isEmpty (s : σ) : Bool
  size (s : σ) : Nat
  /-- The members, in the order in which they are gone through. -/
  ids (s : σ) : List Nat
  intersects (s t : σ) : Bool
  equal (s t : σ) : Bool
  /-- Feeds a hasher with what the hash of the set depends on. -/
  feed {η : Type} (write : η → Nat → η) (s : σ) (hasher : η) : η

/-- Ascending lists have room for every id. -/
def StateSet.ops : SetOps StateSet where
  withCapacity _ := ∅
  singleton? x _ := some (singleton x.toNat)
  ofList? xs := some (ofList (xs.map UInt32.toNat))
  add? s x := some (s.add x.toNat)
  erase? s x := some (s.erase x.toNat)
  union := union
  contains s x := s.contains x.toNat
  isEmpty := isEmpty
  size := size
  ids := members
  intersects := intersects
  equal s t := decide (s = t)
  feed write s hasher := s.members.foldl write hasher

def BitSet.ops (β : Type) [BitBlock β] : SetOps (BitSet β) where
  withCapacity := withCapacity
  singleton? := singleton?
  ofList? := ofList?
  add? := add?
  erase? := erase?
  union := union
  contains := contains
  isEmpty := isEmpty
  size := size
  ids s := s.ids.map UInt32.toNat
  intersects := intersects
  equal s t := s == t
  feed write := feed fun hasher x => write hasher x.toNat

/-- Sets are numbered in the order in which they are created. -/
inductive SetCall where
  | withCapacity (capacity : Nat)
  | singleton (x : UInt32) (capacity : Nat)
  | ofList (xs : List UInt32)
  | copy (set : Nat)
  | add (set : Nat) (x : UInt32)
  | erase (set : Nat) (x : UInt32)
  | union (set other : Nat)

namespace SetOps

variable {σ : Type} (ops : SetOps σ)

/-- Changes the set with that number, if there is one. -/
def change (sets : List σ) (i : Nat) (f : σ → Option (Option Bool × σ)) : Option (Option Bool × List σ) :=
  match sets[i]? with
  | none => some (none,sets)
  | some s => (f s).map fun (answer,s) => (answer,sets.set i s)

/-- The answer to a call, if it has one, and the sets after it; `none` when it fails. -/
def step (sets : List σ) : SetCall → Option (Option Bool × List σ)
  | .withCapacity n => some (none,sets ++ [ops.withCapacity n])
  | .singleton x n => (ops.singleton? x n).map fun s => (none,sets ++ [s])
  | .ofList xs => (ops.ofList? xs).map fun s => (none,sets ++ [s])
  | .copy i => some (none,sets ++ sets[i]?.toList)
  | .add i x => change sets i fun s => (ops.add? s x).map fun (new,s) => (some new,s)
  | .erase i x => change sets i fun s => (ops.erase? s x).map fun s => (none,s)
  | .union i j => change sets i fun s => some (none,sets[j]?.elim s (ops.union s))

def runFrom (sets : List σ) : List SetCall → Option (List (Option Bool) × List σ)
  | [] => some ([],sets)
  | call :: calls => do
    let (answer,sets) ← ops.step sets call
    let (answers,sets) ← runFrom sets calls
    return (answer :: answers,sets)

/-- The answers to the calls and the sets that there are in the end. -/
def run (calls : List SetCall) : Option (List (Option Bool) × List σ) := ops.runFrom [] calls

end SetOps
end StepwiseAutomata
