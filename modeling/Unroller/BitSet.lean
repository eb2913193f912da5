/-!
# Sets of small numbers, packed into 64-bit words

A `BitSet` is a growable array of words; number `i` is bit `i % 64` of word `i / 64`.  Inserting
grows the array as far as needed and nothing ever shrinks it, so two sets with the same members
may still differ in their number of words: equality compares the words.

* `insert` reports whether the number was absent before;
* `members` takes the lowest bit off each word in turn until none is left;
* `count` and `isEmpty` work word by word.
-/

namespace Unroller

/-- A set of natural numbers, one bit each. -/
structure BitSet where
  /-- The words, lowest numbers first. -/
  words : Array UInt64 := #[]
deriving DecidableEq, Inhabited, Repr

namespace BitSet

/-- The word with only bit `i % 64` set. -/
def bit (i : Nat) : UInt64 := 1 <<< (UInt64.ofNat (i % 64))

/-- The empty set with room for the numbers below `capacity`. -/
def withCapacity (capacity : Nat) : BitSet :=
  ⟨Array.replicate ((capacity + 63) / 64) 0⟩

/-- Whether `i` is a member. -/
def contains (s : BitSet) (i : Nat) : Bool :=
  match s.words[i / 64]? with
  | some word => word &&& bit i != 0
  | none => false

/-- The words, followed by as many zero words as it takes to have at least `count` of them. -/
def grow (words : Array UInt64) (count : Nat) : Array UInt64 :=
  words ++ Array.replicate (count - words.size) 0

/-- Adds `i`; the flag tells whether it was absent. -/
def insert (s : BitSet) (i : Nat) : Bool × BitSet :=
  let words := grow s.words (i / 64 + 1)
  let word := words.getD (i / 64) 0
  (word &&& bit i == 0, ⟨words.setIfInBounds (i / 64) (word ||| bit i)⟩)

/-- Removes `i`, which need not be a member. -/
def erase (s : BitSet) (i : Nat) : BitSet :=
  ⟨s.words.modify (i / 64) (· &&& ~~~ (bit i))⟩

/-- Removes every member and keeps the words. -/
def clear (s : BitSet) : BitSet :=
  ⟨s.words.map fun _ => 0⟩

/-- Whether no bit is set. -/
def isEmpty (s : BitSet) : Bool :=
  s.words.all (· == 0)

/-- The number of bits set in one word. -/
def popCount (word : UInt64) : Nat :=
  (List.range 64).countP fun i => word &&& bit i != 0

/-- The number of members. -/
def count (s : BitSet) : Nat :=
  s.words.foldl (fun n w => n + popCount w) 0

/-- The number of zero bits below the lowest bit that is set. -/
def trailingZeros (word : UInt64) : Nat := word.toBitVec.ctz.toNat

/-- The word without its lowest bit that is set. -/
def dropLowest (word : UInt64) : UInt64 := word &&& (word - 1)

theorem toNat_dropLowest_lt {word : UInt64} (h : word ≠ 0) :
    (dropLowest word).toNat < word.toNat := by
  have hpos : 0 < word.toNat := Nat.pos_of_ne_zero fun h0 => h (UInt64.toNat_inj.1 h0)
  have hsub : (word - 1).toNat = word.toNat - 1 := UInt64.toNat_sub_of_le _ _ hpos
  have hle : (dropLowest word).toNat ≤ (word - 1).toNat := by
    rw [dropLowest, UInt64.toNat_and]
    exact Nat.and_le_right
  omega

/-- The positions of the bits set in a word, from the lowest on, counted from `base`. -/
def peel (base : Nat) (word : UInt64) : List Nat :=
  if word = 0 then [] else (base + trailingZeros word) :: peel base (dropLowest word)
termination_by word.toNat
decreasing_by exact toNat_dropLowest_lt ‹_›

/-- The members in ascending order. -/
def members (s : BitSet) : List Nat :=
  s.words.toList.zipIdx.flatMap fun e => peel (64 * e.2) e.1

/-- The set of the listed numbers, with room for those below `capacity` at least. -/
def ofList (capacity : Nat) (items : List Nat) : BitSet :=
  items.foldl (fun s i => (s.insert i).2) (withCapacity capacity)

/-- The members between braces, separated by commas. -/
def render (s : BitSet) : String :=
  "\x7b" ++ ", ".intercalate (s.members.map toString) ++ "\x7d"

end BitSet

end Unroller
