import Mathlib
import Bitemporal.Proofs.Trie.Table

/-!
# Tables in post-order

The table of a trie can be grown entry by entry: the nodes of the children are appended first, one
child after the other, and then the node itself, which refers to the entries at which its children
have ended. What was appended is never touched again, so the table is the one that is laid out from
start indices alone. Every entry but the last is referred to exactly once, from behind.

## Main definitions

* `TableNode.references`: the entries that an entry refers to.
* `Trie.appendTo`: a table with the nodes of a trie behind its entries.
* `Trie.growTable`: the table of a trie and the index of its root, entry by entry.

## Main statements

* `Trie.appendTo_eq`: appending leaves the entries before and lays out the nodes behind them.
* `Trie.perm_references`: every node of a trie but its own is referred to exactly once.
* `Trie.lt_of_mem_references`: a node refers to nodes before it.
* `NodeTable.toTable_roundTrip`: the table of a regular trie.
-/

namespace Bitemporal

open scoped List

/-- The entries that an entry refers to. -/
def TableNode.references : TableNode → List Nat
  | .branch children => children
  | _ => []

namespace Trie

variable {start i : Nat} {node : TableNode}

mutual

/-- A table with the nodes of a trie behind its entries, and the index of the trie's own node. -/
def appendTo (table : NodeTable) : Trie Nat → NodeTable × Nat
  | .absent => (table ++ [.absent], table.length)
  | .leaf page => (table ++ [.leaf page], table.length)
  | .branch children =>
    let (table, indices) := appendChildrenTo table children
    (table ++ [.branch indices], table.length)

/-- The same for several tries, one after the other. -/
def appendChildrenTo (table : NodeTable) : List (Trie Nat) → NodeTable × List Nat
  | [] => (table, [])
  | t :: rest =>
    let (table, index) := appendTo table t
    let (table, indices) := appendChildrenTo table rest
    (table, index :: indices)

end

/-- The table of a trie, grown from nothing, and the index of its root. -/
def growTable (t : Trie Nat) : NodeTable × Option Nat :=
  if t.isAbsent then ([], none)
  else
    let (table, index) := appendTo [] t
    (table, some index)

theorem appendChildrenTo_eq {children : List (Trie Nat)}
    (h : ∀ c ∈ children, ∀ table, appendTo table c =
      (table ++ nodesFrom table.length c, table.length + (nodesFrom table.length c).length - 1))
    (table : NodeTable) : appendChildrenTo table children =
      (table ++ (childNodesFrom table.length children).1,
        (childNodesFrom table.length children).2) := by
  induction children generalizing table with
  | nil => simp [appendChildrenTo, childNodesFrom]
  | cons c rest ih =>
    rw [List.forall_mem_cons] at h
    simp [appendChildrenTo, childNodesFrom, h.1, ih h.2]

/-- Appending leaves the entries that are there, and lays out the nodes from their number on. -/
theorem appendTo_eq (table : NodeTable) (t : Trie Nat) : appendTo table t =
    (table ++ nodesFrom table.length t,
      table.length + (nodesFrom table.length t).length - 1) := by
  induction t generalizing table with
  | absent => simp [appendTo, nodesFrom]
  | leaf page => simp [appendTo, nodesFrom]
  | branch children ih => simp [appendTo, nodesFrom, appendChildrenTo_eq ih]

theorem growTable_eq (t : Trie Nat) : t.growTable = t.toTable := by
  simp [growTable, toTable, appendTo_eq]

/-! ## References -/

theorem perm_childReferences {children : List (Trie Nat)}
    (h : ∀ c ∈ children, ∀ start, ((nodesFrom start c).flatMap TableNode.references).Perm
      (List.range' start ((nodesFrom start c).length - 1))) (start : Nat) :
    ((childNodesFrom start children).1.flatMap TableNode.references ++
      (childNodesFrom start children).2).Perm
        (List.range' start (childNodesFrom start children).1.length) := by
  induction children generalizing start with
  | nil => simp [childNodesFrom]
  | cons c rest ih =>
    rw [List.forall_mem_cons] at h
    obtain ⟨n, hn⟩ := Nat.exists_eq_succ_of_ne_zero (length_nodesFrom_pos start c).ne'
    have hfirst := h.1 start
    have hrest := ih h.2 (start + (n + 1))
    simp only [childNodesFrom, hn, List.flatMap_append, List.length_append, Nat.succ_eq_add_one,
      ← Nat.add_assoc, Nat.add_sub_cancel] at hfirst hrest ⊢
    generalize (nodesFrom start c).flatMap TableNode.references = first at hfirst ⊢
    generalize (childNodesFrom (start + n + 1) rest).1.flatMap TableNode.references = later
      at hrest ⊢
    calc first ++ later ++ (start + n) :: (childNodesFrom (start + n + 1) rest).2
      _ ~ first ++ [start + n] ++ (later ++ (childNodesFrom (start + n + 1) rest).2) := by
        rw [List.append_assoc, List.append_assoc]
        exact List.perm_middle.append_left first
      _ ~ List.range' start n ++ [start + n] ++
          List.range' (start + n + 1) (childNodesFrom (start + n + 1) rest).1.length :=
        (hfirst.append_right _).append hrest
      _ = List.range' start (n + 1 + (childNodesFrom (start + n + 1) rest).1.length) := by
        rw [← List.range'_append_1, List.range'_1_concat, Nat.add_assoc]

/-- Every node of a trie but its own is referred to exactly once. -/
theorem perm_references (start : Nat) (t : Trie Nat) :
    ((nodesFrom start t).flatMap TableNode.references).Perm
      (List.range' start ((nodesFrom start t).length - 1)) := by
  induction t generalizing start with
  | absent => simp [nodesFrom, TableNode.references]
  | leaf page => simp [nodesFrom, TableNode.references]
  | branch children ih =>
    simpa [nodesFrom, TableNode.references] using perm_childReferences ih start

theorem lt_of_mem_childReferences {children : List (Trie Nat)}
    (h : ∀ c ∈ children, ∀ start i node, (nodesFrom start c)[i]? = some node →
      ∀ j ∈ node.references, j < start + i)
    (hi : (childNodesFrom start children).1[i]? = some node) :
    ∀ j ∈ node.references, j < start + i := by
  induction children generalizing start i with
  | nil => simp [childNodesFrom] at hi
  | cons c rest ih =>
    rw [List.forall_mem_cons] at h
    simp only [childNodesFrom] at hi
    intro j hj
    rcases lt_or_ge i (nodesFrom start c).length with hlt | hge
    · rw [List.getElem?_append_left hlt] at hi
      exact h.1 start i node hi j hj
    · rw [List.getElem?_append_right hge] at hi
      have := ih h.2 hi j hj
      omega

/-- A node refers to nodes before it. -/
theorem lt_of_mem_references {t : Trie Nat} (hi : (nodesFrom start t)[i]? = some node) :
    ∀ j ∈ node.references, j < start + i := by
  induction t generalizing start i node with
  | absent =>
    rw [nodesFrom] at hi
    obtain rfl := List.mem_singleton.1 (List.mem_of_getElem? hi)
    simp [TableNode.references]
  | leaf page =>
    rw [nodesFrom] at hi
    obtain rfl := List.mem_singleton.1 (List.mem_of_getElem? hi)
    simp [TableNode.references]
  | branch children ih =>
    rw [nodesFrom] at hi
    intro j hj
    rcases lt_or_ge i (childNodesFrom start children).1.length with hlt | hge
    · rw [List.getElem?_append_left hlt] at hi
      exact lt_of_mem_childReferences (fun c hc start i node => ih c hc) hi j hj
    · rw [List.getElem?_append_right hge] at hi
      obtain ⟨-, rfl⟩ := by simpa [List.getElem?_singleton] using hi
      have := lt_of_mem_childNodesFrom hj
      omega

end Trie

namespace NodeTable

variable {pageCount : Nat}

/-- A regular trie whose leaves name pages that are there. Its table is the one that is grown entry
by entry, and it is read as the same trie. In it every branch refers to entries before it, no entry
is referred to twice, and the root, if there is one, is the last entry. -/
theorem toTable_roundTrip {t : HashTrie} (h : t.IsRegular)
    (hpages : ∀ l ∈ t.leaves, l.2 < pageCount) :
    ∃ (table : NodeTable) (root : Option Nat),
      t.root.toTable = (table, root) ∧ t.root.growTable = (table, root) ∧
      build table root t.width pageCount = .ok t ∧
      (∀ i children, table[i]? = some (TableNode.branch children) → ∀ c ∈ children, c < i) ∧
      (table.flatMap TableNode.references).Nodup ∧
      ∀ i ∈ root, i + 1 = table.length := by
  have hvalues : ∀ i ∈ t.root.values, i < pageCount := by
    intro i hi
    obtain ⟨l, hl, rfl⟩ := List.mem_map.1 hi
    exact hpages l hl
  refine ⟨t.root.toTable.1, t.root.toTable.2, rfl, t.root.growTable_eq,
    build_toTable h hvalues, ?_⟩
  rw [Trie.toTable]
  split
  · simp
  · refine ⟨fun i children hi c hc => ?_, ?_, ?_⟩
    · simpa using Trie.lt_of_mem_references hi c hc
    · exact (Trie.perm_references 0 t.root).nodup_iff.2 List.nodup_range'
    · have := Trie.length_nodesFrom_pos 0 t.root
      simp
      omega

/-- A branch below a branch, with absent children beside the leaves. -/
theorem toTable_roundTrip_nested :
    ∃ (table : NodeTable) (root : Option Nat),
      (Trie.branch [.branch [.absent, .leaf 0, .absent, .leaf 1], .leaf 2, .absent,
        .leaf 3]).toTable = (table, root) ∧
      build table root .two 4 = .ok ⟨.branch [.branch [.absent, .leaf 0, .absent, .leaf 1],
        .leaf 2, .absent, .leaf 3], .two⟩ ∧
      (table.flatMap TableNode.references).Nodup ∧ ∀ i ∈ root, i + 1 = table.length := by
  let t : HashTrie := ⟨.branch [.branch [.absent, .leaf 0, .absent, .leaf 1], .leaf 2, .absent,
    .leaf 3], .two⟩
  have hregular : t.IsRegular := by
    simp [t, HashTrie.IsRegular, Trie.IsRegular, Trie.AreRegular, BucketWidth.maxDepth,
      BucketWidth.bits, BucketWidth.fanOut]
  have hpages : ∀ l ∈ t.leaves, l.2 < 4 := by
    simp [t, HashTrie.leaves, Trie.leaves, Trie.childLeaves]
  obtain ⟨table, root, htable, -, hbuild, -, hnodup, hlast⟩ := toTable_roundTrip hregular hpages
  exact ⟨table, root, htable, hbuild, hnodup, hlast⟩

end NodeTable

end Bitemporal
