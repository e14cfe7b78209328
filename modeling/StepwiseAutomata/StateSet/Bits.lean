import StepwiseAutomata.Text

/-!
Sets of ids kept in blocks of bits. A block has an end, and no bit past it can be switched; a set makes its block longer
before it would have to, so that the room it was created with does not show.
-/
namespace StepwiseAutomata

/-- Blocks of bits, as a library offers them. -/
class BitBlock (β : Type) where
  /-- A block with all bits off. -/
  blank (length : Nat) : β
  length (b : β) : Nat
  /-- Reads a bit, which is off past the end. -/
  get (b : β) (i : Nat) : Bool
  /-- Moves the end of a block; the new bits are off. -/
  grow (b : β) (length : Nat) : β
  /-- Switches a bit on and tells what it was; fails past the end. -/
  put? (b : β) (i : Nat) : Option (Bool × β)
  /-- Switches a bit; fails past the end. -/
  set? (b : β) (i : Nat) (on : Bool) : Option β
  /-- Switches on what is on in the other block. -/
  unionWith (b c : β) : β
  /-- The positions of the bits that are on. -/
  ones (b : β) : List Nat
  countOnes (b : β) : Nat
  isClear (b : β) : Bool
  /-- The positions of the bits that are on in both blocks. -/
  common (b c : β) : List Nat

/-- What sets rely on. Nothing is said about switching bits past the end, nor about uniting with a longer block. -/
structure BitBlock.Lawful (β : Type) [BitBlock β] : Prop where
  get_blank (n i : Nat) : get (blank n : β) i = false
  get_past {b : β} {i : Nat} : length b ≤ i → get b i = false
  length_grow {b : β} {n : Nat} : length b ≤ n → length (grow b n) = n
  get_grow {b : β} {n : Nat} (i : Nat) : length b ≤ n → get (grow b n) i = get b i
  put {b : β} {i : Nat} : i < length b →
    ∃ c, put? b i = some (get b i,c) ∧ ∀ j, get c j = if j = i then true else get b j
  set {b : β} {i : Nat} (on : Bool) : i < length b →
    ∃ c, set? b i on = some c ∧ ∀ j, get c j = if j = i then on else get b j
  get_unionWith {b c : β} (i : Nat) : length c ≤ length b → get (unionWith b c) i = (get b i || get c i)
  ones (b : β) : ones b = (List.range (length b)).filter (get b)
  countOnes (b : β) : countOnes b = (List.range (length b)).countP (get b)
  isClear (b : β) : isClear b = true ↔ ∀ i, get b i = false
  mem_common {b c : β} {i : Nat} : i ∈ common b c ↔ get b i = true ∧ get c i = true

/-- A block with a cell for each bit. -/
structure Bits where
  cells : Array Bool

namespace Bits

def get (b : Bits) (i : Nat) : Bool := b.cells.getD i false

def set? (b : Bits) (i : Nat) (on : Bool) : Option Bits :=
  if i < b.cells.size then some ⟨b.cells.setIfInBounds i on⟩ else none

instance : BitBlock Bits where
  blank n := ⟨Array.replicate n false⟩
  length b := b.cells.size
  get := get
  grow b n := ⟨b.cells ++ Array.replicate (n - b.cells.size) false⟩
  put? b i := (b.set? i true).map fun c => (b.get i,c)
  set? := set?
  unionWith b c := ⟨Array.ofFn fun i : Fin (max b.cells.size c.cells.size) => b.get i || c.get i⟩
  ones b := (List.range b.cells.size).filter b.get
  countOnes b := b.cells.count true
  isClear b := b.cells.all (! ·)
  common b c := (List.range (min b.cells.size c.cells.size)).filter fun i => b.get i && c.get i

end Bits

structure BitSet (β : Type) where
  bits : β

namespace BitSet

open BitBlock

variable {β : Type} [BitBlock β]

/-- The empty set, with room for the ids below the capacity. -/
def withCapacity (capacity : Nat) : BitSet β := ⟨blank capacity⟩

/-- Inserts `x` and tells whether it was new. -/
def add? (s : BitSet β) (x : UInt32) : Option (Bool × BitSet β) :=
  let bits := if length s.bits ≤ x.toNat then grow s.bits (x.toNat + 1) else s.bits
  (put? bits x.toNat).map fun (was,bits) => (!was,⟨bits⟩)

def insert? (s : BitSet β) (x : UInt32) : Option (BitSet β) := (s.add? x).map Prod.snd

def singleton? (x : UInt32) (capacity : Nat) : Option (BitSet β) := (withCapacity capacity).insert? x

def ofList? (xs : List UInt32) : Option (BitSet β) := xs.foldlM insert? (withCapacity 0)

def erase? (s : BitSet β) (x : UInt32) : Option (BitSet β) :=
  if x.toNat < length s.bits then (set? s.bits x.toNat false).map mk else some s

def union (s t : BitSet β) : BitSet β :=
  let bits := if length s.bits < length t.bits then grow s.bits (length t.bits) else s.bits
  ⟨unionWith bits t.bits⟩

def contains (s : BitSet β) (x : UInt32) : Bool := get s.bits x.toNat

def isEmpty (s : BitSet β) : Bool := isClear s.bits

def size (s : BitSet β) : Nat := countOnes s.bits

/-- The members. An id is a word, so that a position from `2 ^ 32` on would come out as another one. -/
def ids (s : BitSet β) : List UInt32 := (ones s.bits).map UInt32.ofNat

def intersects (s t : BitSet β) : Bool := (common s.bits t.bits).head?.isSome

instance : BEq (BitSet β) := ⟨fun s t => s.ids == t.ids⟩

/-- Feeds the members to a hasher, one after the other. -/
def feed {η : Type} (write : η → UInt32 → η) (s : BitSet β) (hasher : η) : η := s.ids.foldl write hasher

instance : Hashable (BitSet β) := ⟨fun s => s.feed (fun h x => mixHash h (hash x)) 7⟩

/-- The members between braces. -/
def text (s : BitSet β) : String := Text.braced (s.ids.map toString)

end BitSet
end StepwiseAutomata
