import Bitemporal.Trie.Basic

/-!
# Node tables

A trie is stored as a table of nodes in which children stand before their parent. Reading a table
checks every node that the root reaches, so a table from anywhere gives a regular trie or a defect.

## Main definitions

* `Trie.toTable`: the table of a trie.
* `NodeTable.build`: the trie of a table, or the first defect met on the way down.
-/

namespace Bitemporal

/-- An entry of a node table. -/
inductive TableNode where
  | absent
  | leaf (page : Nat)
  | branch (children : List Nat)
deriving DecidableEq, Repr, Inhabited

/-- The entries, by index. -/
abbrev NodeTable := List TableNode

namespace Trie

mutual

/-- The nodes of a trie, to stand in a table from the index `start` on. The last of them is the
trie's own. -/
def nodesFrom (start : Nat) : Trie Nat → NodeTable
  | .absent => [.absent]
  | .leaf page => [.leaf page]
  | .branch children =>
    let (nodes, indices) := childNodesFrom start children
    nodes ++ [.branch indices]

/-- The nodes of several tries, one after the other, and the index of each trie's own node. -/
def childNodesFrom (start : Nat) : List (Trie Nat) → NodeTable × List Nat
  | [] => ([], [])
  | t :: rest =>
    let nodes := nodesFrom start t
    let next := start + nodes.length
    let (more, indices) := childNodesFrom next rest
    (nodes ++ more, (next - 1) :: indices)

end

/-- The table of a trie and the index of its root; an absent trie has an empty table. -/
def toTable (t : Trie Nat) : NodeTable × Option Nat :=
  if t.isAbsent then ([], none)
  else
    let table := nodesFrom 0 t
    (table, some (table.length - 1))

end Trie

/-- What is wrong with a node table. -/
inductive TableDefect where
  | noSuchNode (index : Nat)
  | noSuchPage (page pageCount : Nat)
  | tooDeep (index depth maxDepth : Nat)
  | wrongFanOut (index count fanOut : Nat)
  | forwardReference (index child : Nat)
deriving DecidableEq, Repr

namespace TableDefect

/-- The defect in words. -/
def message : TableDefect → String
  | noSuchNode index => s!"node index {index} out of range"
  | noSuchPage page pageCount => s!"leaf refers to page {page} of {pageCount}"
  | tooDeep index depth maxDepth =>
    s!"branch at node {index} sits at depth {depth}, past the maximum of {maxDepth}"
  | wrongFanOut index count fanOut =>
    s!"branch at node {index} has {count} children, expected {fanOut}"
  | forwardReference index child => s!"branch at node {index} refers forward to node {child}"

end TableDefect

namespace NodeTable

/-- The subtries of a list of nodes, or the first defect among them. -/
def collect {α ε : Type} (build : Nat → Except ε α) : List Nat → Except ε (List α)
  | [] => .ok []
  | i :: rest =>
    match build i with
    | .error e => .error e
    | .ok t =>
      match collect build rest with
      | .error e => .error e
      | .ok ts => .ok (t :: ts)

/-- The trie under a node. `room` counts the levels left below it, so a branch without room is
past the last level. -/
def buildAt (table : Array TableNode) (w : BucketWidth) (pageCount : Nat) :
    Nat → Nat → Except TableDefect (Trie Nat)
  | room, index =>
    match table[index]? with
    | none => .error (.noSuchNode index)
    | some .absent => .ok .absent
    | some (.leaf page) =>
      if page < pageCount then .ok (.leaf page) else .error (.noSuchPage page pageCount)
    | some (.branch children) =>
      match room with
      | 0 => .error (.tooDeep index w.maxDepth w.maxDepth)
      | room + 1 =>
        if children.length ≠ w.fanOut then
          .error (.wrongFanOut index children.length w.fanOut)
        else
          match children.find? (index ≤ ·) with
          | some child => .error (.forwardReference index child)
          | none => (collect (buildAt table w pageCount room) children).map .branch

/-- The trie of a table. -/
def build (table : NodeTable) (root : Option Nat) (w : BucketWidth) (pageCount : Nat) :
    Except TableDefect HashTrie :=
  match root with
  | none => .ok ⟨.absent, w⟩
  | some index => (buildAt table.toArray w pageCount w.maxDepth index).map (⟨·, w⟩)

end NodeTable

end Bitemporal
