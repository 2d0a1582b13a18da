import Mathlib
import Bitemporal.Proofs.Trie.Reach
import Bitemporal.Trie.Table

/-!
# Node tables

The table of a regular trie leads back to the trie. Each subtrie is built from its own stretch of
the table, whatever stands before and behind it.

## Main statements

* `NodeTable.buildAt_nodesFrom`: a trie is built from its stretch of a table.
* `NodeTable.build_toTable`: a table is read as it was written.
* `NodeTable.buildAt_eq_ok_iff`: all that can be at an index from which a trie is built.
* `NodeTable.isRegular_of_build`: a trie read from any table is regular.
-/

namespace Bitemporal

open Trie (nodesFrom childNodesFrom)

variable {w : BucketWidth} {room pageCount : Nat} {t : Trie Nat} {children : List (Trie Nat)}

theorem Trie.length_nodesFrom_pos (start : Nat) (t : Trie Nat) :
    0 < (nodesFrom start t).length := by
  cases t <;> simp [nodesFrom]

theorem Trie.length_childNodesFrom (start : Nat) (children : List (Trie Nat)) :
    (childNodesFrom start children).2.length = children.length := by
  induction children generalizing start with
  | nil => rfl
  | cons c rest ih => simp [childNodesFrom, ih]

theorem Trie.lt_of_mem_childNodesFrom {start i : Nat} {children : List (Trie Nat)}
    (hi : i ∈ (childNodesFrom start children).2) :
    i < start + (childNodesFrom start children).1.length := by
  induction children generalizing start with
  | nil => cases hi
  | cons c rest ih =>
    have hpos := Trie.length_nodesFrom_pos start c
    simp only [childNodesFrom, List.mem_cons, List.length_append] at hi ⊢
    rcases hi with rfl | hi
    · omega
    · have := ih hi
      omega

namespace NodeTable

/-- The nodes of several tries lead back to them if those of each do. -/
theorem collect_childNodesFrom
    (hbuild : ∀ c ∈ children, ∀ before after : NodeTable,
      buildAt (before ++ nodesFrom before.length c ++ after).toArray w pageCount room
        (before.length + (nodesFrom before.length c).length - 1) = .ok c)
    (before after : NodeTable) :
    collect (buildAt (before ++ (childNodesFrom before.length children).1 ++ after).toArray w
      pageCount room) (childNodesFrom before.length children).2 = .ok children := by
  induction children generalizing before with
  | nil => rfl
  | cons c rest ih =>
    rw [List.forall_mem_cons] at hbuild
    have hfirst := hbuild.1 before
      ((childNodesFrom (before.length + (nodesFrom before.length c).length) rest).1 ++ after)
    have hrest := ih hbuild.2 (before ++ nodesFrom before.length c)
    rw [List.length_append] at hrest
    simp only [childNodesFrom, collect, List.append_assoc] at hfirst hrest ⊢
    rw [hfirst, hrest]

/-- A trie is built from its stretch of a table. -/
theorem buildAt_nodesFrom (h : t.IsRegular w room)
    (hpages : ∀ i ∈ t.values, i < pageCount) (before after : NodeTable) :
    buildAt (before ++ nodesFrom before.length t ++ after).toArray w pageCount room
      (before.length + (nodesFrom before.length t).length - 1) = .ok t := by
  induction t generalizing room before after with
  | absent => rw [buildAt.eq_def]; simp [nodesFrom]
  | leaf page =>
    have hpage : page < pageCount := hpages page (by simp)
    rw [buildAt.eq_def]
    simp [nodesFrom, hpage]
  | branch children ih =>
    obtain ⟨hpos, hlength, hchildren⟩ := Trie.isRegular_branch.1 h
    obtain ⟨room, rfl⟩ := Nat.exists_eq_succ_of_ne_zero hpos.ne'
    have hpages : ∀ c ∈ children, ∀ i ∈ c.values, i < pageCount := fun c hc i hi =>
      hpages i (by simpa using ⟨c, hc, hi⟩)
    have hcollect := collect_childNodesFrom
      (fun c hc before after => ih c hc (hchildren c hc) (hpages c hc) before after) before
      ([.branch (childNodesFrom before.length children).2] ++ after)
    have hforward : (childNodesFrom before.length children).2.find?
        (before.length + (childNodesFrom before.length children).1.length ≤ ·) = none := by
      refine List.find?_eq_none.2 fun i hi => ?_
      simpa using Trie.lt_of_mem_childNodesFrom hi
    rw [buildAt.eq_def]
    simp only [nodesFrom, List.append_assoc, List.length_append, List.length_singleton,
      Nat.add_sub_cancel, ← Nat.add_assoc, List.getElem?_toArray]
    rw [List.getElem?_append_right (by omega), List.getElem?_append_right (by omega)]
    simp only [List.append_assoc, List.cons_append, List.nil_append, Nat.succ_sub_one] at hcollect
    simp [Trie.length_childNodesFrom, hlength, hforward, hcollect, Except.map]

/-- A table is read as it was written. -/
theorem build_toTable {t : HashTrie} (h : t.IsRegular)
    (hpages : ∀ i ∈ t.root.values, i < pageCount) :
    build t.root.toTable.1 t.root.toTable.2 t.width pageCount = .ok t := by
  obtain ⟨root, w⟩ := t
  rw [Trie.toTable]
  split
  · rename_i habsent
    cases root with
    | absent => rfl
    | leaf page => cases habsent
    | branch children => cases habsent
  · have hroot := buildAt_nodesFrom h hpages [] []
    simp only [List.nil_append, List.append_nil, List.length_nil, Nat.zero_add] at hroot
    rw [build, hroot]
    rfl

/-! ## Any table -/

/-- Subtries are collected exactly if each of them is built. -/
theorem collect_eq_ok_iff {α ε : Type} {build : Nat → Except ε α} {is : List Nat} {ts : List α} :
    collect build is = .ok ts ↔ List.Forall₂ (fun i t => build i = .ok t) is ts := by
  induction is generalizing ts with
  | nil => simp [collect, eq_comm]
  | cons i is ih =>
    rw [collect, List.forall₂_cons_left_iff]
    simp only [← ih]
    cases build i with
    | error e => simp
    | ok t => cases collect build is <;> simp [eq_comm]

theorem exists_of_forall₂ {α β : Type} {R : α → β → Prop} {xs : List α} {ys : List β}
    (h : List.Forall₂ R xs ys) {y : β} (hy : y ∈ ys) : ∃ x ∈ xs, R x y := by
  induction h with
  | nil => cases hy
  | cons hxy _ ih => grind

/-- All that can be at an index from which a trie is built, and the trie. -/
theorem buildAt_eq_ok_iff {table : Array TableNode} {index : Nat} :
    buildAt table w pageCount room index = .ok t ↔
      (table[index]? = some .absent ∧ t = .absent) ∨
      (∃ page, table[index]? = some (.leaf page) ∧ page < pageCount ∧ t = .leaf page) ∨
      ∃ below indices children, table[index]? = some (.branch indices) ∧ room = below + 1 ∧
        indices.length = w.fanOut ∧ (∀ j ∈ indices, j < index) ∧
        List.Forall₂ (fun j c => buildAt table w pageCount below j = .ok c) indices children ∧
        t = .branch children := by
  rw [buildAt.eq_def]
  cases hnode : table[index]? with
  | none => simp [hnode]
  | some node =>
    cases node with
    | absent => simp [hnode, eq_comm]
    | leaf page => by_cases hpage : page < pageCount <;> simp [hnode, hpage, eq_comm]
    | branch indices =>
      cases room with
      | zero => simp [hnode]
      | succ below =>
        by_cases hlength : indices.length = w.fanOut
        swap
        · simp [hnode, hlength]
        cases hforward : indices.find? (index ≤ ·) with
        | some child =>
          have hchild : ¬ ∀ j ∈ indices, j < index := by
            intro h
            have hle := List.find?_some hforward
            have hlt := h child (List.mem_of_find?_eq_some hforward)
            simp only [decide_eq_true_eq] at hle
            omega
          simp [hnode, hlength, hforward, hchild]
        | none =>
          have hless : ∀ j ∈ indices, j < index := by simpa using hforward
          simp only [← collect_eq_ok_iff]
          cases hcollect : collect (buildAt table w pageCount below) indices with
          | error d => simp [hnode, hlength, hforward, hcollect, Except.map]
          | ok children =>
            simp only [hnode, hlength, hforward, hcollect, Except.map]
            grind

/-- Whatever a table holds, the trie that is built from it branches within the levels that it is
given. -/
theorem isRegular_of_buildAt {table : Array TableNode} {index : Nat}
    (h : buildAt table w pageCount room index = .ok t) : t.IsRegular w room := by
  induction room using Nat.strong_induction_on generalizing index t with
  | h room ih =>
    rcases buildAt_eq_ok_iff.1 h with
      ⟨-, rfl⟩ | ⟨page, -, -, rfl⟩ | ⟨below, indices, children, -, rfl, hlength, -, hbuilt, rfl⟩
    · trivial
    · trivial
    · refine Trie.isRegular_branch.2 ⟨below.succ_pos, hbuilt.length_eq ▸ hlength, fun c hc => ?_⟩
      obtain ⟨j, -, hj⟩ := exists_of_forall₂ hbuilt hc
      exact ih below below.lt_succ_self hj

/-- What a table is read as: nothing without a root, and else the trie of its root. -/
theorem build_eq_ok_iff {table : NodeTable} {root : Option Nat} {t : HashTrie} :
    build table root w pageCount = .ok t ↔
      (root = none ∧ t = ⟨.absent, w⟩) ∨
      ∃ index node, root = some index ∧
        buildAt table.toArray w pageCount w.maxDepth index = .ok node ∧ t = ⟨node, w⟩ := by
  cases root with
  | none => simp [build, eq_comm]
  | some index =>
    rw [build]
    cases hnode : buildAt table.toArray w pageCount w.maxDepth index <;>
      simp [hnode, Except.map, eq_comm]

theorem isRegular_of_build {table : NodeTable} {root : Option Nat} {t : HashTrie}
    (h : build table root w pageCount = .ok t) : t.IsRegular := by
  rcases build_eq_ok_iff.1 h with ⟨-, rfl⟩ | ⟨index, node, -, hnode, rfl⟩
  · trivial
  · exact isRegular_of_buildAt hnode

end NodeTable

end Bitemporal
