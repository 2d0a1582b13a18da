import Bitemporal.Trie.Path

/-!
# Tries

A trie is absent, a leaf, or a branch with one child for each bucket. The type does not fix the
number of children; `Trie.IsRegular` does.

## Main definitions

* `Trie.child`, `Trie.at`: the subtrie under a bucket and under a path.
* `Trie.leaves`: the leaves with their paths, in ascending order of paths.
* `Trie.depth`: the length of the longest of these paths.
* `Trie.number`: the trie with its leaves replaced by successive numbers.
* `HashTrie`: a trie of page numbers with the bits that its levels consume.
-/

namespace Bitemporal

/-- A trie with values at its leaves. -/
inductive Trie (α : Type) where
  | absent
  | leaf (value : α)
  | branch (children : List (Trie α))
deriving Repr

namespace Trie

variable {α : Type}

instance : Inhabited (Trie α) := ⟨.absent⟩

/-- Whether there is nothing. -/
def isAbsent : Trie α → Bool
  | .absent => true
  | _ => false

/-- Whether the trie is a single leaf. -/
def isLeaf : Trie α → Bool
  | .leaf _ => true
  | _ => false

/-- The child under a bucket; leaves have none. -/
def child (bucket : Nat) : Trie α → Trie α
  | .branch children => children.getD bucket .absent
  | _ => .absent

/-- The subtrie under a path. -/
def descend (t : Trie α) (path : Path) : Trie α := path.foldl (fun t b => t.child b) t

mutual

/-- The leaves with their paths. A bucket is one byte of its path. -/
def leaves : Trie α → List (Path × α)
  | .absent => []
  | .leaf v => [([], v)]
  | .branch children => childLeaves 0 children

/-- The leaves under the children from a bucket on. -/
def childLeaves (bucket : Nat) : List (Trie α) → List (Path × α)
  | [] => []
  | t :: rest =>
    (leaves t).map (fun (path, v) => (bucket % 256 :: path, v)) ++ childLeaves (bucket + 1) rest

end

/-- The number of leaves. -/
def leafCount (t : Trie α) : Nat := t.leaves.length

/-- The length of the longest path to a leaf; zero without leaves. -/
def depth (t : Trie α) : Nat := (t.leaves.map fun l => l.1.length).foldl max 0

mutual

/-- The number of branches on the longest way down. -/
def height : Trie α → Nat
  | .absent => 0
  | .leaf _ => 0
  | .branch children => childHeight children + 1

/-- The greatest height among children. -/
def childHeight : List (Trie α) → Nat
  | [] => 0
  | t :: rest => max (height t) (childHeight rest)

end

mutual

/-- Every branch has one child for each bucket and stands above the last of `room` levels. -/
def IsRegular (w : BucketWidth) (room : Nat) : Trie α → Prop
  | .absent => True
  | .leaf _ => True
  | .branch children =>
    0 < room ∧ children.length = w.fanOut ∧ AreRegular w (room - 1) children

/-- Every trie of a list is regular. -/
def AreRegular (w : BucketWidth) (room : Nat) : List (Trie α) → Prop
  | [] => True
  | t :: rest => IsRegular w room t ∧ AreRegular w room rest

end

mutual

/-- The trie with its leaves replaced by numbers in order of their paths, and the next number. -/
def number (next : Nat) : Trie α → Trie Nat × Nat
  | .absent => (.absent, next)
  | .leaf _ => (.leaf next, next + 1)
  | .branch children =>
    let (children, next) := numberChildren next children
    (.branch children, next)

/-- The same for a list of tries. -/
def numberChildren (next : Nat) : List (Trie α) → List (Trie Nat) × Nat
  | [] => ([], next)
  | t :: rest =>
    let (t, next) := number next t
    let (rest, next) := numberChildren next rest
    (t :: rest, next)

end

mutual

/-- Equality of tries of numbers. -/
def same : Trie Nat → Trie Nat → Bool
  | .absent, .absent => true
  | .leaf a, .leaf b => a == b
  | .branch as, .branch bs => sameChildren as bs
  | _, _ => false

/-- Equality of lists of tries. -/
def sameChildren : List (Trie Nat) → List (Trie Nat) → Bool
  | [], [] => true
  | a :: as, b :: bs => same a b && sameChildren as bs
  | _, _ => false

end

end Trie

/-- A trie whose leaves name pages, and how many bits its levels consume. -/
structure HashTrie where
  /-- The trie of page numbers. -/
  root : Trie Nat
  /-- The bits of a level. -/
  width : BucketWidth
deriving Repr, Inhabited

namespace HashTrie

/-- The leaves with their paths. -/
def leaves (t : HashTrie) : List (Path × Nat) := t.root.leaves

/-- The number of leaves. -/
def leafCount (t : HashTrie) : Nat := t.root.leafCount

/-- The length of the longest path. -/
def depth (t : HashTrie) : Nat := t.root.depth

/-- Every branch has one child for each bucket and stands above the last level. -/
def IsRegular (t : HashTrie) : Prop := t.root.IsRegular t.width t.width.maxDepth

end HashTrie

end Bitemporal
