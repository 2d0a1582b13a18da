import Mathlib
import Bitemporal.Proofs.Fact.Sort
import Bitemporal.Proofs.Trie.Path
import Bitemporal.Proofs.Trie.Reach
import Bitemporal.Segment.Layout

/-!
# The layout of a segment

Laying out cuts facts by the buckets of their entities, so a path leads to a leaf with all facts
under that path, or to nothing where there are none. Whatever the row limit is, a write of ordered
facts that allows oversized leaves succeeds.

## Main definitions

* `Fact.under`: the facts whose entity lies under a path.
* `HashTrie.Divides`: the pages of a trie divide some facts among them.

## Main statements

* `Layout.isRegular_ofRows`: the trie of a layout is regular.
* `Layout.reach_ofRows`: what a path leads to.
* `Writer.value_write`: a write of ordered facts.
* `Writer.flatMap_pagesOf`: its pages hold the facts in their order.
* `Writer.divides_write`: its pages divide the facts.
-/

namespace Bitemporal

open scoped Linear

variable {w : BucketWidth} {limit : Nat} {rows : List Fact} {p s : Path}

/-- The facts whose entity lies under a path. -/
def Fact.under (w : BucketWidth) (p : Path) (rows : List Fact) : List Fact :=
  rows.filter fun f => f.entity.isUnder w p

@[simp] theorem Fact.under_nil : Fact.under w p [] = [] := rfl

theorem Fact.under_eq_nil_iff :
    Fact.under w p rows = [] ↔ ∀ f ∈ rows, ¬ f.entity.isUnder w p := List.filter_eq_nil_iff

theorem Fact.under_eq_self (h : ∀ f ∈ rows, f.entity.isUnder w p) : Fact.under w p rows = rows :=
  List.filter_eq_self.2 h

namespace Layout

/-- Facts under a path are in the bucket that the path goes on with. -/
theorem under_inBucket {b : Nat} (hlevel : p.length < w.maxDepth) :
    Fact.under w (p ++ b :: s) (inBucket w p.length b rows) = Fact.under w (p ++ b :: s) rows := by
  rw [Fact.under, Fact.under, inBucket, List.filter_filter]
  apply List.filter_congr
  intro f hf
  by_cases hu : f.entity.isUnder w (p ++ b :: s)
  · have hb := EntityId.isUnder_of_prefix (q := p ++ [b]) ⟨s, by simp⟩ hu
    rw [EntityId.isUnder_concat_iff] at hb
    simp [hu, EntityId.bucket?_eq hlevel, hb.2.2]
  · simp [hu]

theorem under_eq_nil_of_fanOut_le {b : Nat} (hb : w.fanOut ≤ b) :
    Fact.under w (p ++ b :: s) rows = [] := by
  refine Fact.under_eq_nil_iff.2 fun f _ hf => not_lt.2 hb ?_
  exact EntityId.lt_fanOut_of_mem_path ((EntityId.isUnder_iff.1 hf).subset (by simp))

theorem isUnder_of_mem_inBucket {b : Nat} (hp : ∀ f ∈ rows, f.entity.isUnder w p)
    (hlevel : p.length < w.maxDepth) {f : Fact} (hf : f ∈ inBucket w p.length b rows) :
    f.entity.isUnder w (p ++ [b]) := by
  rw [inBucket, List.mem_filter, EntityId.bucket?_eq hlevel] at hf
  exact EntityId.isUnder_concat_iff.2 ⟨hp f hf.1, hlevel, by simpa using hf.2⟩

theorem isRegular_ofRowsAt (room : Nat) (rows : List Fact) :
    (ofRowsAt w limit room rows).IsRegular w room := by
  induction room generalizing rows with
  | zero =>
    rw [ofRowsAt]
    split
    · trivial
    · split <;> trivial
  | succ room ih =>
    rw [ofRowsAt]
    split
    · trivial
    split
    · trivial
    · refine Trie.isRegular_branch.2 ⟨by omega, by simp, fun c hc => ?_⟩
      obtain ⟨b, -, rfl⟩ := List.mem_map.1 hc
      exact ih _

theorem isRegular_ofRows (rows : List Fact) : (ofRows w limit rows).IsRegular w w.maxDepth :=
  isRegular_ofRowsAt _ _

/-- A path on from a level leads to a leaf with the facts under it, or to nothing where there are
none. The facts share the path down to the level. -/
theorem reach_ofRowsAt {room : Nat} (hroom : p.length + room = w.maxDepth)
    (hp : ∀ f ∈ rows, f.entity.isUnder w p) (s : Path) :
    match (ofRowsAt w limit room rows).reach s with
    | .absent => Fact.under w (p ++ s) rows = []
    | .leaf rs => Fact.under w (p ++ s) rs = Fact.under w (p ++ s) rows
    | .branch _ => True := by
  induction room generalizing rows p s with
  | zero =>
    rw [ofRowsAt]
    split_ifs with hempty
    · simp [List.isEmpty_iff.1 hempty]
    · simp
    · simp
  | succ room ih =>
    rw [ofRowsAt]
    split_ifs with hempty
    · simp [List.isEmpty_iff.1 hempty]
    · simp
    · have hlevel : p.length < w.maxDepth := by omega
      have hat : w.maxDepth - (room + 1) = p.length := by omega
      rw [hat]
      cases s with
      | nil => simp
      | cons b s =>
        rw [Trie.reach_branch, Trie.getD_map_range, ← under_inBucket hlevel]
        split_ifs with hb
        · have hchild := ih (p := p ++ [b]) (by simp; omega)
            (fun f hf => isUnder_of_mem_inBucket hp hlevel hf) s
          simpa using hchild
        · simpa using under_eq_nil_of_fanOut_le (not_lt.1 hb)

theorem reach_ofRows (rows : List Fact) (p : Path) :
    match (ofRows w limit rows).reach p with
    | .absent => Fact.under w p rows = []
    | .leaf rs => Fact.under w p rs = Fact.under w p rows
    | .branch _ => True :=
  reach_ofRowsAt (p := []) (Nat.zero_add _) (fun _ _ => EntityId.isUnder_iff.2 List.nil_prefix) p

theorem sublist_of_mem_values {room : Nat} {rs : List Fact}
    (h : rs ∈ (ofRowsAt w limit room rows).values) : rs.Sublist rows := by
  have hleaf (rows : List Fact) (h : rs ∈ (Trie.leaf rows).values) : rs.Sublist rows := by
    rw [Trie.values_leaf, List.mem_singleton] at h
    rw [h]
  induction room generalizing rows with
  | zero =>
    rw [ofRowsAt] at h
    split_ifs at h
    · simp at h
    · exact hleaf rows h
    · exact hleaf rows h
  | succ room ih =>
    rw [ofRowsAt] at h
    split_ifs at h
    · simp at h
    · exact hleaf rows h
    · rw [Trie.values_branch, List.flatMap_map, List.mem_flatMap] at h
      obtain ⟨b, -, hb⟩ := h
      exact (ih hb).trans List.filter_sublist

/-- Facts that fit a leaf or belong to one entity are not cut. -/
theorem ofRows_eq_leaf (hne : rows ≠ []) (h : rows.length ≤ limit ∨ isSolo rows) :
    ofRows w limit rows = .leaf rows := by
  rw [ofRows, ofRowsAt.eq_def]
  simp [hne, h]

/-- Ordered facts under a path are those in its buckets, one bucket after the other. -/
theorem flatMap_inBucket (hrows : Fact.IsOrdered rows) (hp : ∀ f ∈ rows, f.entity.isUnder w p)
    (hlevel : p.length < w.maxDepth) :
    ((List.range w.fanOut).flatMap fun b => inBucket w p.length b rows) = rows := by
  have hunder (b : Nat) :
      inBucket w p.length b rows = rows.filter fun f => f.entity.isUnder w (p ++ [b]) := by
    refine List.filter_congr fun f hf => ?_
    have hiff := @EntityId.isUnder_concat_iff w f.entity p b
    rw [EntityId.bucket?_eq hlevel]
    grind
  simp only [hunder]
  apply Stable.flatMap_filter Fact.isPreorder_before hrows
    fun b f => f.entity.isUnder w (p ++ [b])
  · refine List.pairwise_lt_range.imp fun hxy a b ha hb hba => ?_
    exact absurd (Fact.entity_le_of_before hba) (not_le.2 (EntityId.lt_of_isUnder_append hxy ha hb))
  · intro f hf
    refine ⟨w.bucketAt f.entity p.length, List.mem_range.2 (w.bucketAt_lt _ _), ?_⟩
    exact EntityId.isUnder_concat_iff.2 ⟨hp f hf, hlevel, rfl⟩

/-- The leaves of a layout of ordered facts hold the facts, one leaf after the other. -/
theorem flatten_values_ofRowsAt (limit : Nat) {room : Nat}
    (hroom : p.length + room = w.maxDepth) (hrows : Fact.IsOrdered rows)
    (hp : ∀ f ∈ rows, f.entity.isUnder w p) :
    (ofRowsAt w limit room rows).values.flatten = rows := by
  induction room generalizing rows p with
  | zero =>
    rw [ofRowsAt]
    split_ifs with hempty
    · simp [List.isEmpty_iff.1 hempty]
    · simp
    · simp
  | succ room ih =>
    rw [ofRowsAt]
    split_ifs with hempty
    · simp [List.isEmpty_iff.1 hempty]
    · simp
    · have hlevel : p.length < w.maxDepth := by omega
      have hat : w.maxDepth - (room + 1) = p.length := by omega
      have hchild (b : Nat) :
          (ofRowsAt w limit room (inBucket w p.length b rows)).values.flatten =
            inBucket w p.length b rows :=
        ih (p := p ++ [b]) (by simp; omega) (hrows.filter _)
          fun f hf => isUnder_of_mem_inBucket hp hlevel hf
      rw [hat, Trie.values_branch, List.flatMap_map, List.flatMap_def, List.flatten_flatten,
        List.map_map]
      simp only [Function.comp_def, hchild]
      rw [← List.flatMap_def]
      exact flatMap_inBucket hrows hp hlevel

end Layout

/-- The pages of a trie divide facts: each leaf holds the facts under the paths that lead to it, in
order, and the leaves are numbered as the pages are. -/
structure HashTrie.Divides (t : HashTrie) (pages : List Page) (rows : List Fact) : Prop where
  regular : t.IsRegular
  numbers : t.root.values = List.range pages.length
  absent : ∀ p, t.root.reach p = .absent → Fact.under t.width p rows = []
  leaf : ∀ p i, t.root.reach p = .leaf i →
    ∃ page, pages[i]? = some page ∧ Fact.under t.width p page.rows = Fact.under t.width p rows
  sublist : ∀ page ∈ pages, page.rows.Sublist rows

theorem HashTrie.Divides.ordered {t : HashTrie} {pages : List Page} (h : t.Divides pages rows)
    (hrows : Fact.IsOrdered rows) {page : Page} (hpage : page ∈ pages) :
    Fact.IsOrdered page.rows := hrows.sublist (h.sublist page hpage)

namespace Writer

variable {wr : Writer}

/-- Settings that are accepted make a writer. -/
theorem exists_ofSettings {settings : Settings} {w : BucketWidth} (hcheck : settings.check = .ok w)
    (hallow : settings.oversized = .allow) :
    ∃ wr, Writer.ofSettings settings = .ok wr ∧ wr.width = w ∧ wr.oversized = .allow :=
  ⟨⟨w, _, _⟩, by rw [ofSettings, hcheck]; rfl, rfl, hallow⟩

theorem value_fill (hallow : wr.oversized = .allow) (leaves : List (Path × List Fact)) :
    (wr.fill leaves).value = (leaves.map fun l => ⟨l.2⟩, none) := by
  induction leaves with
  | nil => rfl
  | cons l rest ih =>
    rw [fill, if_neg (by simp [hallow])]
    simp [ih]

/-- The pages that a write makes of ordered facts. -/
def pagesOf (wr : Writer) (rows : List Fact) : List Page :=
  (Layout.ofRows wr.width wr.limit rows).values.map Page.mk

/-- The trie that a write makes of ordered facts. -/
def trieOf (wr : Writer) (rows : List Fact) : HashTrie :=
  ⟨((Layout.ofRows wr.width wr.limit rows).number 0).1, wr.width⟩

theorem pagesOf_eq_singleton (hne : rows ≠ [])
    (h : rows.length ≤ wr.limit ∨ Layout.isSolo rows) : wr.pagesOf rows = [⟨rows⟩] := by
  rw [pagesOf, Layout.ofRows_eq_leaf hne h]
  rfl

theorem trieOf_eq_leaf (hne : rows ≠ []) (h : rows.length ≤ wr.limit ∨ Layout.isSolo rows) :
    wr.trieOf rows = ⟨.leaf 0, wr.width⟩ := by
  rw [trieOf, Layout.ofRows_eq_leaf hne h]
  rfl

/-- A write of ordered facts that allows oversized leaves succeeds. -/
theorem value_write (hallow : wr.oversized = .allow) (h : Fact.IsOrdered rows) :
    (wr.write rows).value = ⟨wr.pagesOf rows, .ok (wr.trieOf rows)⟩ := by
  rw [write, Fact.firstDisorder?_eq_none_iff.2 h]
  simp [value_fill hallow, pagesOf, trieOf, Trie.values, Function.comp_def]

/-- The pages of a write hold the facts, one page after the other. -/
theorem flatMap_pagesOf (wr : Writer) (h : Fact.IsOrdered rows) :
    (wr.pagesOf rows).flatMap Page.rows = rows := by
  have hflatten := Layout.flatten_values_ofRowsAt wr.limit (p := [])
    (Nat.zero_add wr.width.maxDepth) h fun _ _ => EntityId.isUnder_iff.2 List.nil_prefix
  simpa [pagesOf, Layout.ofRows, List.flatMap_map] using hflatten

theorem divides_write (wr : Writer) (rows : List Fact) :
    (wr.trieOf rows).Divides (wr.pagesOf rows) rows where
  regular := (Layout.isRegular_ofRows rows).number 0
  numbers := by
    rw [trieOf, Trie.values_number, pagesOf, List.length_map, List.range_eq_range']
  absent p hp := by
    have hnumber := Trie.reach_number (Layout.ofRows wr.width wr.limit rows) 0 p
    have hrows := @Layout.reach_ofRows wr.width wr.limit rows p
    rw [trieOf] at hp
    cases hreach : (Layout.ofRows wr.width wr.limit rows).reach p with
    | absent => simpa [hreach, trieOf] using hrows
    | leaf rs => simp [hreach, hp] at hnumber
    | branch children => simp [hreach, hp] at hnumber
  leaf p i hp := by
    have hnumber := Trie.reach_number (Layout.ofRows wr.width wr.limit rows) 0 p
    have hrows := @Layout.reach_ofRows wr.width wr.limit rows p
    rw [trieOf] at hp
    cases hreach : (Layout.ofRows wr.width wr.limit rows).reach p with
    | absent => simp [hreach, hp] at hnumber
    | leaf rs =>
      simp only [hreach, hp, Trie.leaf.injEq, Nat.zero_add] at hnumber hrows
      obtain ⟨i, rfl, hi⟩ := hnumber
      exact ⟨⟨rs⟩, by simp [pagesOf, hi], hrows⟩
    | branch children => simp [hreach, hp] at hnumber
  sublist page hpage := by
    obtain ⟨rs, hrs, rfl⟩ := List.mem_map.1 hpage
    exact Layout.sublist_of_mem_values hrs

end Writer

end Bitemporal
