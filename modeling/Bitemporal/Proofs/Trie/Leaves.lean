import Mathlib
import Bitemporal.Proofs.Trie.Reach

/-!
# The leaves of a trie and their paths

In a regular trie the buckets of a branch fit the bytes of a path, so a path leads to a leaf exactly
if the path of that leaf is a prefix of it.

## Main statements

* `Trie.IsRegular.mem_leaves_branch`: the leaves of a branch.
* `Trie.IsRegular.reach_eq_leaf_iff`: the leaf that a path leads to.
* `Trie.IsRegular.pairwise_leaves`: the paths of the leaves ascend.
* `Trie.leaves_number`: numbering keeps the paths of the leaves.
-/

namespace Bitemporal

theorem BucketWidth.fanOut_le (w : BucketWidth) : w.fanOut ≤ 256 := by cases w <;> decide

namespace Trie

variable {α : Type} {w : BucketWidth} {room : Nat} {t : Trie α} {children : List (Trie α)}
  {p : Path} {v : α}

/-- On the way to a leaf and below it, a path leads to a branch or to that leaf. -/
theorem reach_of_prefix_or_prefix {q : Path} (hq : t.reach q = .leaf v)
    (h : q <+: p ∨ p <+: q) : t.reach p = .leaf v ∨ ∃ children, t.reach p = .branch children := by
  rcases h with ⟨r, rfl⟩ | ⟨r, rfl⟩
  · exact .inl (by rw [reach_append, hq, reach_leaf])
  · rw [reach_append] at hq
    cases hp : t.reach p with
    | absent => simp [hp] at hq
    | leaf v' => exact .inl (by simpa [hp] using hq)
    | branch children => exact .inr ⟨children, rfl⟩

theorem mem_childLeaves {b : Nat} : (p, v) ∈ childLeaves b children ↔
    ∃ i c rest, children[i]? = some c ∧ (rest, v) ∈ c.leaves ∧ p = (b + i) % 256 :: rest := by
  induction children generalizing b with
  | nil => simp [childLeaves]
  | cons c cs ih =>
    have hcount (i : Nat) : b + 1 + i = b + (i + 1) := by omega
    rw [childLeaves, List.mem_append, ih]
    constructor
    · rintro (h | ⟨i, c', rest, hc, hrest, rfl⟩)
      · obtain ⟨⟨rest, v'⟩, hrest, heq⟩ := List.mem_map.1 h
        obtain ⟨rfl, rfl⟩ := Prod.mk.inj heq
        exact ⟨0, c, rest, rfl, hrest, rfl⟩
      · exact ⟨i + 1, c', rest, hc, hrest, by rw [hcount]⟩
    · rintro ⟨i, c', rest, hc, hrest, rfl⟩
      cases i with
      | zero =>
        obtain rfl := Option.some_inj.1 hc
        exact .inl (List.mem_map.2 ⟨(rest, v), hrest, rfl⟩)
      | succ i => exact .inr ⟨i, c', rest, hc, hrest, by rw [hcount]⟩

theorem pairwise_childLeaves {b : Nat} (hb : b + children.length ≤ 256)
    (h : ∀ c ∈ children, c.leaves.Pairwise fun l l' => l.1 < l'.1) :
    (childLeaves b children).Pairwise fun l l' => l.1 < l'.1 := by
  induction children generalizing b with
  | nil => exact .nil
  | cons c cs ih =>
    rw [List.forall_mem_cons] at h
    rw [List.length_cons] at hb
    refine List.pairwise_append.2 ⟨List.pairwise_map.2 (h.1.imp fun hlt => ?_),
      ih (by omega) h.2, ?_⟩
    · exact List.cons_lt_cons_iff.2 (.inr ⟨rfl, hlt⟩)
    · rintro l hl ⟨p', v'⟩ hl'
      obtain ⟨⟨p, v⟩, -, rfl⟩ := List.mem_map.1 hl
      obtain ⟨i, c', rest, hc', -, rfl⟩ := mem_childLeaves.1 hl'
      have hi := (List.getElem?_eq_some_iff.1 hc').1
      exact List.cons_lt_cons_iff.2 (.inl (by omega))

/-- Numbering replaces the values of the leaves by numbers, and leaves their paths. -/
theorem leaves_number (t : Trie α) (n : Nat) :
    (t.number n).1.leaves = (t.leaves.zipIdx n).map fun l => (l.1.1, l.2) := by
  induction t generalizing n with
  | absent => simp [number, leaves]
  | leaf v => simp [number, leaves]
  | branch children ih =>
    rw [number, leaves, leaves]
    generalize 0 = b
    induction children generalizing n b with
    | nil => simp [numberChildren, childLeaves]
    | cons c cs ihc =>
      rw [List.forall_mem_cons] at ih
      have hlength : c.values.length = c.leaves.length := List.length_map _
      simp [numberChildren, childLeaves, ih.1, ihc ih.2, number_snd, hlength, List.zipIdx_append,
        List.zipIdx_map, Function.comp_def]

theorem mem_leaves_number {i : Nat} :
    (p, i) ∈ (t.number 0).1.leaves ↔ ∃ v, t.leaves[i]? = some (p, v) := by
  simp [leaves_number, List.mem_zipIdx_iff_getElem?]

/-- Descending stops below a leaf, where a path would still lead to it. -/
theorem descend_eq_branch_iff : t.descend p = .branch children ↔ t.reach p = .branch children := by
  have habsent (p : Path) : (.absent : Trie α).descend p = .absent := by
    induction p with
    | nil => rfl
    | cons b p ih => exact ih
  induction p generalizing t with
  | nil => simp [descend]
  | cons b rest ih =>
    cases t with
    | absent => simp [habsent]
    | leaf v => simp [show (Trie.leaf v).descend (b :: rest) = .absent from habsent rest]
    | branch cs => exact ih

namespace IsRegular

/-- The leaves of a branch are those of its children, each under its bucket. -/
theorem mem_leaves_branch (h : IsRegular w room (.branch children)) :
    (p, v) ∈ (Trie.branch children).leaves ↔
      ∃ b rest, p = b :: rest ∧ (rest, v) ∈ (children.getD b .absent).leaves := by
  have hlength := (isRegular_branch.1 h).2.1
  have hbyte {b : Nat} (hb : b < children.length) : (0 + b) % 256 = b := by
    have := w.fanOut_le
    omega
  rw [leaves, mem_childLeaves]
  constructor
  · rintro ⟨b, c, rest, hc, hrest, rfl⟩
    obtain ⟨hb, rfl⟩ := List.getElem?_eq_some_iff.1 hc
    exact ⟨b, rest, by rw [hbyte hb], by rwa [List.getD_eq_getElem _ _ hb]⟩
  · rintro ⟨b, rest, rfl, hrest⟩
    by_cases hb : b < children.length
    · rw [List.getD_eq_getElem _ _ hb] at hrest
      exact ⟨b, _, rest, List.getElem?_eq_getElem hb, hrest, by rw [hbyte hb]⟩
    · rw [List.getD_eq_default _ _ (not_lt.1 hb), leaves] at hrest
      cases hrest

/-- A path leads to a leaf exactly if the path of that leaf is a prefix of it. -/
theorem reach_eq_leaf_iff (h : IsRegular w room t) :
    t.reach p = .leaf v ↔ ∃ q, q <+: p ∧ (q, v) ∈ t.leaves := by
  induction p generalizing t room with
  | nil =>
    cases t with
    | absent => simp [leaves]
    | leaf v' => simp [leaves, eq_comm]
    | branch children => simp [h.mem_leaves_branch]
  | cons b rest ih =>
    cases t with
    | absent => simp [leaves]
    | leaf v' => simp [leaves, eq_comm]
    | branch children =>
      rw [reach_branch, ih (h.getD b)]
      simp only [h.mem_leaves_branch]
      constructor
      · rintro ⟨q, hq, hmem⟩
        exact ⟨b :: q, List.cons_prefix_cons.2 ⟨rfl, hq⟩, b, q, rfl, hmem⟩
      · rintro ⟨-, hq, b', q, rfl, hmem⟩
        obtain ⟨rfl, hrest⟩ := List.cons_prefix_cons.1 hq
        exact ⟨q, hrest, hmem⟩

/-- The leaves of a regular trie stand in ascending order of their paths. -/
theorem pairwise_leaves (h : IsRegular w room t) :
    t.leaves.Pairwise fun l l' => l.1 < l'.1 := by
  induction t generalizing room with
  | absent => rw [leaves]; exact .nil
  | leaf v => rw [leaves]; exact List.pairwise_singleton _ _
  | branch children ih =>
    rw [isRegular_branch] at h
    have hfan := w.fanOut_le
    rw [leaves]
    exact pairwise_childLeaves (by omega) fun c hc => ih c hc (h.2.2 c hc)

end IsRegular

end Trie

end Bitemporal
