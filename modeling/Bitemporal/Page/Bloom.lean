import Bitemporal.Entity.Id

/-!
# Bloom filters of entities

A filter of 64-bit words says of an entity either that it was never inserted or that it may have
been. Ids are spread evenly already, so the three probes of an id come straight from its halves.

## Main definitions

* `Bloom.ofBits`: the empty filter of a size.
* `Bloom.insert`, `Bloom.mightContain?`: an entity goes in, and is asked for.
* `Bloom.intersects`: whether two filters may share an entity.
-/

namespace Bitemporal

/-- A filter, by its words. -/
structure Bloom where
  /-- The words, the lowest bits first. -/
  words : List UInt64
deriving DecidableEq, Repr, Inhabited

namespace Bloom

/-- The empty filter of at least that many bits, in whole words and not without any. -/
def ofBits (bits : Nat) : Bloom := ⟨List.replicate (max ((bits + 63) / 64) 1) 0⟩

/-- The number of bits. -/
def bitCount (b : Bloom) : Nat := 64 * b.words.length

/-- The three hash values of an entity. The step between them is odd. -/
def hashes (e : EntityId) : List UInt64 :=
  let step := e.low ||| 1
  [e.high, e.high + step, e.high + 2 * step]

/-- The bits that stand for an entity; a filter without words has none to take. -/
def probes? (b : Bloom) (e : EntityId) : Option (List Nat) :=
  if b.words.isEmpty then none else some ((hashes e).map fun h => h.toNat % b.bitCount)

/-- Sets a bit. -/
def setBit (words : List UInt64) (position : Nat) : List UInt64 :=
  words.modify (position / 64) (· ||| (1 <<< UInt64.ofNat (position % 64)))

/-- Whether a bit is set. -/
def testBit (words : List UInt64) (position : Nat) : Bool :=
  words.getD (position / 64) 0 &&& (1 <<< UInt64.ofNat (position % 64)) ≠ 0

/-- The filter with one more entity. -/
def insert (b : Bloom) (e : EntityId) : Bloom := ⟨((b.probes? e).getD []).foldl setBit b.words⟩

/-- Whether an entity may have been inserted; a filter without words cannot be asked. -/
def mightContain? (b : Bloom) (e : EntityId) : Option Bool :=
  (b.probes? e).map fun ps => ps.all (testBit b.words)

/-- Whether the filters may share an entity. Probes depend on the size, so filters of different
sizes always may. -/
def intersects (a b : Bloom) : Bool :=
  if a.words.length ≠ b.words.length then true
  else (a.words.zip b.words).any fun (x, y) => x &&& y ≠ 0

end Bloom

end Bitemporal
