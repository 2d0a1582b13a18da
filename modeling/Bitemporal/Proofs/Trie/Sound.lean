import Mathlib
import Bitemporal.Proofs.Trie.Leaves
import Bitemporal.Proofs.Trie.Table
import Bitemporal.Segment.Manifest

/-!
# Sound node tables

A table from anywhere may refer forward, to itself or to what it does not hold, and nodes may share
their children. Reading it follows the references down from the root and checks what it meets, by
the index and by the depth at which it is met. A node that is shared is met once on every way to it,
so one of these ways may be too long while another is not.

## Main definitions

* `NodeTable.Leads`: a way down from a node, by child references.
* `NodeTable.Admits`: what a table must hold where such a way ends.
* `NodeTable.IsSound`: what must hold of all ways down from the root.
* `NodeTable.Spells`: the trie that a table spells from a node on.

## Main statements

* `NodeTable.exists_buildAt_iff`: a trie is built if all ways down from its node end well.
* `NodeTable.build_accepts`: the tables that are read, and what they are read as.
-/

namespace Bitemporal.NodeTable

variable {table : NodeTable} {w : BucketWidth} {room pageCount depth i j : Nat} {t : Trie Nat}

/-- A way down from a node by child references, with its length and the node where it ends. -/
inductive Leads (table : NodeTable) : Nat → Nat → Nat → Prop
  | stay (i : Nat) : Leads table i 0 i
  | down {i c depth j : Nat} {children : List Nat} : table[i]? = some (.branch children) →
      c ∈ children → Leads table c depth j → Leads table i (depth + 1) j

/-- What a table must hold at an index that is met at a depth. -/
def Admits (table : NodeTable) (w : BucketWidth) (pageCount depth i : Nat) : Prop :=
  match table[i]? with
  | none => False
  | some .absent => True
  | some (.leaf page) => page < pageCount
  | some (.branch children) =>
    depth < w.maxDepth ∧ children.length = w.fanOut ∧ ∀ c ∈ children, c < i

/-- Whatever is met on the way down from the root, if there is one, is in order. -/
def IsSound (table : NodeTable) (root : Option Nat) (w : BucketWidth) (pageCount : Nat) : Prop :=
  ∀ i ∈ root, ∀ depth j, table.Leads i depth j → table.Admits w pageCount depth j

/-- The trie that a table spells from a node on. -/
inductive Spells (table : NodeTable) : Nat → Trie Nat → Prop
  | absent {i : Nat} : table[i]? = some .absent → Spells table i .absent
  | leaf {i page : Nat} : table[i]? = some (.leaf page) → Spells table i (.leaf page)
  | branch {i : Nat} {indices : List Nat} {children : List (Trie Nat)} :
      table[i]? = some (.branch indices) → List.Forall₂ (Spells table) indices children →
      Spells table i (.branch children)

/-! ## Ways down -/

/-- Where a trie is built, all that is met below its node is in order. -/
theorem admits_of_buildAt (hroom : room ≤ w.maxDepth)
    (h : buildAt table.toArray w pageCount room i = .ok t) (hleads : table.Leads i depth j) :
    table.Admits w pageCount (w.maxDepth - room + depth) j := by
  induction hleads generalizing room t with
  | stay i =>
    rcases buildAt_eq_ok_iff.1 h with
      ⟨hi, -⟩ | ⟨page, hi, hpage, -⟩ | ⟨below, indices, children, hi, rfl, hlength, hless, -, -⟩ <;>
      rw [List.getElem?_toArray] at hi <;> simp only [Admits, hi]
    · exact hpage
    · exact ⟨by omega, hlength, hless⟩
  | @down i c depth j indices hi hc _ ih =>
    rcases buildAt_eq_ok_iff.1 h with
      ⟨hi', -⟩ | ⟨page, hi', -, -⟩ | ⟨below, indices', children, hi', rfl, -, -, hbuilt, -⟩ <;>
      rw [List.getElem?_toArray, hi] at hi' <;> cases hi'
    obtain ⟨t, -, ht⟩ := exists_of_forall₂ hbuilt.flip hc
    have := ih (by omega) ht
    rwa [show w.maxDepth - below + depth = w.maxDepth - (below + 1) + (depth + 1) by omega] at this

/-- A trie is built exactly if all that is met below its node is in order. -/
theorem exists_buildAt_iff (hroom : room ≤ w.maxDepth) :
    (∃ t, buildAt table.toArray w pageCount room i = .ok t) ↔
      ∀ depth j, table.Leads i depth j →
        table.Admits w pageCount (w.maxDepth - room + depth) j := by
  constructor
  · rintro ⟨t, ht⟩ depth j hleads
    exact admits_of_buildAt hroom ht hleads
  · intro h
    induction room using Nat.strong_induction_on generalizing i with
    | h room ih =>
      have hnode := h 0 i (.stay i)
      rw [Admits] at hnode
      cases hi : table[i]? with
      | none => simp [hi] at hnode
      | some node =>
        simp only [hi] at hnode
        rw [← List.getElem?_toArray] at hi
        cases node with
        | absent => exact ⟨_, buildAt_eq_ok_iff.2 (.inl ⟨hi, rfl⟩)⟩
        | leaf page => exact ⟨_, buildAt_eq_ok_iff.2 (.inr (.inl ⟨page, hi, hnode, rfl⟩))⟩
        | branch indices =>
          obtain ⟨hdepth, hlength, hless⟩ := hnode
          obtain ⟨below, rfl⟩ : ∃ below, room = below + 1 :=
            Nat.exists_eq_succ_of_ne_zero (by omega)
          have hbelow : ∀ c ∈ indices, ∃ t, buildAt table.toArray w pageCount below c = .ok t := by
            intro c hc
            refine ih below (by omega) (by omega) fun depth j hleads => ?_
            have := h (depth + 1) j (.down (by simpa using hi) hc hleads)
            rwa [show w.maxDepth - (below + 1) + (depth + 1) = w.maxDepth - below + depth by
              omega] at this
          choose! child hchild using hbelow
          have hbuilt : List.Forall₂ (fun j c => buildAt table.toArray w pageCount below j = .ok c)
              indices (indices.map child) :=
            List.forall₂_map_right_iff.2 (List.forall₂_same.2 hchild)
          exact ⟨_, buildAt_eq_ok_iff.2
            (.inr (.inr ⟨below, indices, _, hi, rfl, hlength, hless, hbuilt, rfl⟩))⟩

/-! ## What is read -/

/-- A trie is built as the table spells it. -/
theorem spells_of_buildAt (h : buildAt table.toArray w pageCount room i = .ok t) :
    table.Spells i t := by
  induction room using Nat.strong_induction_on generalizing i t with
  | h room ih =>
    rcases buildAt_eq_ok_iff.1 h with
      ⟨hi, rfl⟩ | ⟨page, hi, -, rfl⟩ | ⟨below, indices, children, hi, rfl, -, -, hbuilt, rfl⟩ <;>
      rw [List.getElem?_toArray] at hi
    · exact .absent hi
    · exact .leaf hi
    · exact .branch hi (hbuilt.imp fun c t ht => ih below below.lt_succ_self ht)

/-- A trie is built with leaves for pages that are there. -/
theorem lt_of_buildAt {table : Array TableNode}
    (h : buildAt table w pageCount room i = .ok t) : ∀ page ∈ t.values, page < pageCount := by
  induction room using Nat.strong_induction_on generalizing i t with
  | h room ih =>
    rcases buildAt_eq_ok_iff.1 h with
      ⟨-, rfl⟩ | ⟨page, -, hpage, rfl⟩ | ⟨below, indices, children, -, rfl, -, -, hbuilt, rfl⟩
    · simp
    · simpa using hpage
    · intro page hpage
      rw [Trie.values_branch, List.mem_flatMap] at hpage
      obtain ⟨c, hc, hpage⟩ := hpage
      obtain ⟨j, -, hj⟩ := exists_of_forall₂ hbuilt hc
      exact ih below below.lt_succ_self hj page hpage

/-- Any table, whatever it holds and wherever its root is said to be. It is read if it is sound, and
then as the trie that it spells, or as an empty one without a root; branches have one child for each
bucket, no leaf is deeper than an id has levels, and the pages of all leaves are there. Any other
table is damage, for which a manifest that holds it is refused. -/
theorem build_accepts (table : NodeTable) (root : Option Nat) (w : BucketWidth)
    (pageCount : Nat) :
    ((∃ t, build table root w pageCount = .ok t) ↔ table.IsSound root w pageCount) ∧
    (∀ t, build table root w pageCount = .ok t →
      t.width = w ∧ (root = none → t.root = .absent) ∧ (∀ i ∈ root, table.Spells i t.root) ∧
      t.IsRegular ∧ ∀ l ∈ t.leaves, l.1.length ≤ w.maxDepth ∧ l.2 < pageCount) ∧
    ∀ d, build table root w pageCount = .error d →
      ∀ name directory pages, pages.length = pageCount →
        StoredSegment.ofManifest name directory
            ⟨Manifest.currentVersion, w.bits, table, root, pages⟩ =
          .error (.corruption d.message) := by
  refine ⟨?_, fun t ht => ?_, ?_⟩
  · cases root with
    | none => simp [build, IsSound]
    | some index =>
      have hroot : (∃ t, buildAt table.toArray w pageCount w.maxDepth index = .ok t) ↔
          ∀ depth j, table.Leads index depth j → table.Admits w pageCount depth j := by
        simpa using exists_buildAt_iff (le_refl w.maxDepth)
      simp [build_eq_ok_iff, IsSound, ← hroot]
  · have hregular := isRegular_of_build ht
    rcases build_eq_ok_iff.1 ht with ⟨rfl, rfl⟩ | ⟨index, node, rfl, hnode, rfl⟩
    · simp [hregular, HashTrie.leaves, Trie.leaves]
    · refine ⟨rfl, by simp, by simpa using spells_of_buildAt hnode, hregular, fun l hl => ?_⟩
      exact ⟨hregular.length_path_le l hl, lt_of_buildAt hnode l.2 (List.mem_map_of_mem hl)⟩
  · rintro d hd name directory pages rfl
    have hwidth : BucketWidth.ofBits w.bits = .ok w := by cases w <;> rfl
    simp [StoredSegment.ofManifest, hwidth, hd]

/-- A leaf that is shared by all buckets of a branch is read; a branch that refers to itself is
damage. -/
theorem build_accepts_shared :
    build [.leaf 0, .branch [0, 0, 0, 0]] (some 1) .two 1 =
        .ok ⟨.branch [.leaf 0, .leaf 0, .leaf 0, .leaf 0], .two⟩ ∧
      IsSound [.leaf 0, .branch [0, 0, 0, 0]] (some 1) .two 1 ∧
      build [.branch [0, 0, 0, 0]] (some 0) .two 0 = .error (.forwardReference 0 0) ∧
      StoredSegment.ofManifest "loop" "data"
          ⟨Manifest.currentVersion, 2, [.branch [0, 0, 0, 0]], some 0, []⟩ =
        .error (.corruption "branch at node 0 refers forward to node 0") := by
  have hshared : build [.leaf 0, .branch [0, 0, 0, 0]] (some 1) .two 1 =
      .ok ⟨.branch [.leaf 0, .leaf 0, .leaf 0, .leaf 0], .two⟩ := rfl
  have hloop : build [.branch [0, 0, 0, 0]] (some 0) .two 0 = .error (.forwardReference 0 0) := rfl
  have hsound := (build_accepts [.leaf 0, .branch [0, 0, 0, 0]] (some 1) .two 1).1.1 ⟨_, hshared⟩
  have hdamage := (build_accepts [.branch [0, 0, 0, 0]] (some 0) .two 0).2.2 _ hloop
  exact ⟨hshared, hsound, hloop, hdamage "loop" "data" [] rfl⟩

end Bitemporal.NodeTable
