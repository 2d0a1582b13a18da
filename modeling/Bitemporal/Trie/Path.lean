import Bitemporal.Entity.Id

/-!
# Paths of a hash trie

Each level of a trie consumes a few bits of an entity id, the highest first. The number of these
bits divides a byte, so a level consumes 2, 4 or 8 of them, and the ids under a path are an
interval.

## Main definitions

* `BucketWidth`: the bits that a level consumes.
* `EntityId.bucket?`: the bucket of an id at a level.
* `BucketWidth.compare?`: where an id stands to the ids under a path.
* `BucketWidth.first`, `BucketWidth.next?`: the least id under a path, and the next path.
-/

namespace Bitemporal

/-- A path from the root of a trie: one bucket for each level. -/
abbrev Path := List Nat

/-- A path in brackets, its buckets between commas. -/
def Path.text (path : Path) : String := "[" ++ ", ".intercalate (path.map toString) ++ "]"

/-- How many bits of an id each level of a trie consumes. -/
inductive BucketWidth where
  | two
  | four
  | eight
deriving DecidableEq, Repr, Inhabited

namespace BucketWidth

/-- The number of bits. -/
def bits : BucketWidth → Nat
  | .two => 2
  | .four => 4
  | .eight => 8

/-- The width of that many bits. -/
def ofBits? : Nat → Option BucketWidth
  | 2 => some .two
  | 4 => some .four
  | 8 => some .eight
  | _ => none

/-- The number of buckets of a level. -/
def fanOut (w : BucketWidth) : Nat := Nat.pow 2 w.bits

/-- The number of levels that the bits of an id suffice for. -/
def maxDepth (w : BucketWidth) : Nat := 128 / w.bits

/-- What the bucket at a level counts in an id. -/
def weight (w : BucketWidth) (level : Nat) : Nat := Nat.pow 2 (128 - w.bits * (level + 1))

end BucketWidth

/-- The bucket of an id at a level; past the last level there is none. -/
def EntityId.bucket? (w : BucketWidth) (e : EntityId) (level : Nat) : Option Nat :=
  if level < w.maxDepth then some (e.bits.toNat / w.weight level % w.fanOut) else none

namespace BucketWidth

/-- Compares the buckets of an id from a level on with those of a path, and stops at the first
difference. A path that goes on past the last level of an id has no comparison. -/
def compareFrom? (w : BucketWidth) (e : EntityId) (level : Nat) : Path → Option Ordering
  | [] => some .eq
  | b :: rest =>
    match e.bucket? w level with
    | none => none
    | some x =>
      match compare x b with
      | .eq => w.compareFrom? e (level + 1) rest
      | o => some o

/-- Where an id stands to the ids under a path: before them, among them or after them. -/
def compare? (w : BucketWidth) (e : EntityId) (path : Path) : Option Ordering :=
  w.compareFrom? e 0 path

/-- What a path from a level on contributes to the least id under it. -/
def offset (w : BucketWidth) (level : Nat) : Path → Nat
  | [] => 0
  | b :: rest =>
    if level < w.maxDepth then b % w.fanOut * w.weight level + w.offset (level + 1) rest else 0

/-- The least id under a path. Of a bucket only the bits of its level count. -/
def first (w : BucketWidth) (path : Path) : EntityId := .ofNat (w.offset 0 path)

/-- The next path of the same length, none after the last. -/
def next? (w : BucketWidth) : Path → Option Path
  | [] => none
  | b :: rest =>
    match w.next? rest with
    | some rest => some (b :: rest)
    | none => if b < w.fanOut - 1 then some ((b + 1) :: rest.map fun _ => 0) else none

/-- The path of an id down to a depth, or to the last level. -/
def pathOf (w : BucketWidth) (e : EntityId) (depth : Nat) : Path :=
  (List.range (min depth w.maxDepth)).filterMap (e.bucket? w)

end BucketWidth

end Bitemporal
