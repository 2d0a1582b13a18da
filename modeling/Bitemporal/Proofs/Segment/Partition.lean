import Mathlib
import Bitemporal.Proofs.Segment.Slices
import Bitemporal.Proofs.Trie.Leaves

/-!
# The partition of a segment

A leaf takes facts up to the row limit and any number of facts of one entity. A path down to the
last level leads to one entity, so cutting facts by buckets always comes to parts that a leaf takes,
and it stops as soon as it does. The trie of a write is thus fixed by the facts: it branches exactly
at the paths with facts that no leaf takes.

## Main definitions

* `Layout.Overflows`: facts that no leaf takes.
* `HashTrie.Partitions`: the pages of a trie are the parts of some facts.

## Main statements

* `Layout.ofRowsAt_cases`: the layout of facts under a path.
* `Layout.reach_ofRowsAt_eq_branch_iff`: where a layout branches.
* `Layout.of_mem_leaves_ofRowsAt`: what a leaf of a layout holds.
* `Writer.write_partitions`: a write of ordered facts partitions them.
-/

namespace Bitemporal

open scoped Linear

variable {w : BucketWidth} {limit : Nat} {rows : List Fact} {p q : Path}

namespace Layout

/-- No leaf takes the facts: they are over the limit, and of several entities. -/
def Overflows (limit : Nat) (rows : List Fact) : Prop :=
  limit < rows.length ∧ 1 < (Fact.entities rows).length

theorem Overflows.of_sublist {rows' : List Fact} (h : Overflows limit rows')
    (hsub : rows'.Sublist rows) : Overflows limit rows := by
  obtain ⟨f, hf, g, hg, hne⟩ := Fact.one_lt_length_entities_iff.1 h.2
  exact ⟨h.1.trans_le hsub.length_le,
    Fact.one_lt_length_entities_iff.2 ⟨f, hsub.subset hf, g, hsub.subset hg, hne⟩⟩

/-- Where ids never go back, equal ids at both ends are equal in between. -/
theorem isSolo_iff (h : Fact.IsGrouped rows) :
    isSolo rows ↔ (Fact.entities rows).length ≤ 1 := by
  obtain - | ⟨first, rest⟩ := rows
  · simp [isSolo, Fact.entities]
  have hlast := List.getLast?_eq_some_getLast (List.cons_ne_nil first rest)
  generalize (first :: rest).getLast _ = last at hlast
  obtain ⟨front, hfront⟩ := List.getLast?_eq_some_iff.1 hlast
  have hsolo : isSolo (first :: rest) ↔ first.entity = last.entity := by
    simp [isSolo, hlast]
  rw [hsolo, ← not_lt, Fact.one_lt_length_entities_iff]
  constructor
  · rintro hends ⟨f, hf, g, hg, hne⟩
    have hbetween {f : Fact} (hf : f ∈ first :: rest) : f.entity = first.entity := by
      have hlower : first.entity ≤ f.entity := by
        rcases List.mem_cons.1 hf with rfl | hf
        · exact le_rfl
        · exact (List.pairwise_cons.1 h).1 f hf
      have hupper : f.entity ≤ last.entity := by
        rw [hfront, Fact.IsGrouped, List.pairwise_append] at h
        rw [hfront, List.mem_append, List.mem_singleton] at hf
        rcases hf with hf | rfl
        · exact h.2.2 f hf last (.head _)
        · exact le_rfl
      exact le_antisymm (hends ▸ hupper) hlower
    exact hne ((hbetween hf).trans (hbetween hg).symm)
  · intro hone
    by_contra hne
    exact hone ⟨first, .head _, last, hfront ▸ by simp, hne⟩

theorem length_entities_le_one (hp : ∀ f ∈ rows, f.entity.isUnder w p)
    (hlast : p.length = w.maxDepth) : (Fact.entities rows).length ≤ 1 := by
  by_contra hmixed
  obtain ⟨f, hf, g, hg, hne⟩ := Fact.one_lt_length_entities_iff.1 (not_le.1 hmixed)
  exact hne (EntityId.eq_of_isUnder hlast (hp f hf) (hp g hg))

/-- The layout of facts under a path: nothing of no facts, a leaf where one takes them, and
otherwise a branch, above at least one more level. -/
theorem ofRowsAt_cases (limit : Nat) {room : Nat} (hroom : p.length + room = w.maxDepth)
    (hrows : Fact.IsGrouped rows) (hp : ∀ f ∈ rows, f.entity.isUnder w p) :
    rows = [] ∧ ofRowsAt w limit room rows = .absent ∨
    rows ≠ [] ∧ ¬ Overflows limit rows ∧ ofRowsAt w limit room rows = .leaf rows ∨
    Overflows limit rows ∧ ∃ deeper, room = deeper + 1 ∧ ofRowsAt w limit room rows =
      .branch ((List.range w.fanOut).map fun b =>
        ofRowsAt w limit deeper (inBucket w p.length b rows)) := by
  have hfits : (decide (rows.length ≤ limit) || isSolo rows) ↔ ¬ Overflows limit rows := by
    rw [Bool.or_eq_true, decide_eq_true_eq, isSolo_iff hrows, Overflows]
    omega
  by_cases hempty : rows = []
  · refine .inl ⟨hempty, ?_⟩
    cases room <;> simp [ofRowsAt, hempty]
  by_cases hover : Overflows limit rows
  · obtain - | deeper := room
    · exact absurd (length_entities_le_one hp hroom) (not_le.2 hover.2)
    · have hat : w.maxDepth - (deeper + 1) = p.length := by omega
      refine .inr (.inr ⟨hover, deeper, rfl, ?_⟩)
      rw [ofRowsAt, if_neg (by simpa), if_neg (by rwa [hfits, not_not]), hat]
  · refine .inr (.inl ⟨hempty, hover, ?_⟩)
    cases room <;> rw [ofRowsAt, if_neg (by simpa), if_pos (hfits.2 hover)]

theorem isGrouped_inBucket (h : Fact.IsGrouped rows) (level b : Nat) :
    Fact.IsGrouped (inBucket w level b rows) := h.filter _

/-- A path leads to a branch exactly where no leaf takes the facts under it. -/
theorem reach_ofRowsAt_eq_branch_iff {room : Nat} (hroom : p.length + room = w.maxDepth)
    (hrows : Fact.IsGrouped rows) (hp : ∀ f ∈ rows, f.entity.isUnder w p) (s : Path) :
    (∃ children, (ofRowsAt w limit room rows).reach s = .branch children) ↔
      Overflows limit (Fact.under w (p ++ s) rows) := by
  induction room using Nat.strong_induction_on generalizing rows p s with
  | _ room ih =>
    rcases ofRowsAt_cases limit hroom hrows hp with
      ⟨rfl, heq⟩ | ⟨-, hfits, heq⟩ | ⟨hover, deeper, rfl, heq⟩
    · simp [heq, Overflows]
    · have hunder : ¬ Overflows limit (Fact.under w (p ++ s) rows) :=
        fun h => hfits (h.of_sublist List.filter_sublist)
      simp [heq, hunder]
    · obtain - | ⟨b, s⟩ := s
      · simp [heq, Fact.under_eq_self hp, hover]
      have hlevel : p.length < w.maxDepth := by omega
      rw [heq, Trie.reach_branch, Trie.getD_map_range, ← under_inBucket hlevel]
      split_ifs with hb
      · have hchild := ih deeper (by omega) (p := p ++ [b]) (by simp; omega)
          (isGrouped_inBucket hrows _ b) (fun f hf => isUnder_of_mem_inBucket hp hlevel hf) s
        rwa [List.append_assoc, List.singleton_append] at hchild
      · simp [under_eq_nil_of_fanOut_le (not_lt.1 hb), Overflows]

/-- A leaf holds all facts under its path, which are some and as many as a leaf takes. -/
theorem of_mem_leaves_ofRowsAt {room : Nat} (hroom : p.length + room = w.maxDepth)
    (hrows : Fact.IsGrouped rows) (hp : ∀ f ∈ rows, f.entity.isUnder w p) {rs : List Fact}
    (h : (q, rs) ∈ (ofRowsAt w limit room rows).leaves) :
    rs = Fact.under w (p ++ q) rows ∧ rs ≠ [] ∧ ¬ Overflows limit rs := by
  induction room using Nat.strong_induction_on generalizing rows p q with
  | _ room ih =>
    have hregular : (ofRowsAt w limit room rows).IsRegular w room := isRegular_ofRowsAt room rows
    rcases ofRowsAt_cases limit hroom hrows hp with
      ⟨rfl, heq⟩ | ⟨hne, hfits, heq⟩ | ⟨hover, deeper, rfl, heq⟩
    · simp [heq, Trie.leaves] at h
    · obtain ⟨rfl, rfl⟩ : q = [] ∧ rs = rows := by simpa [heq, Trie.leaves] using h
      exact ⟨by rw [List.append_nil, Fact.under_eq_self hp], hne, hfits⟩
    · have hlevel : p.length < w.maxDepth := by omega
      rw [heq] at h hregular
      obtain ⟨b, rest, rfl, hrest⟩ := hregular.mem_leaves_branch.1 h
      rw [Trie.getD_map_range] at hrest
      split_ifs at hrest with hb
      · have hchild := ih deeper (by omega) (p := p ++ [b]) (by simp; omega)
          (isGrouped_inBucket hrows _ b) (fun f hf => isUnder_of_mem_inBucket hp hlevel hf) hrest
        rwa [List.append_assoc, List.singleton_append, under_inBucket hlevel] at hchild
      · simp [Trie.leaves] at hrest

theorem reach_ofRows_eq_branch_iff (h : Fact.IsGrouped rows) (p : Path) :
    (∃ children, (ofRows w limit rows).reach p = .branch children) ↔
      Overflows limit (Fact.under w p rows) :=
  reach_ofRowsAt_eq_branch_iff (p := []) (Nat.zero_add _) h
    (fun _ _ => EntityId.isUnder_iff.2 List.nil_prefix) p

theorem of_mem_leaves_ofRows (h : Fact.IsGrouped rows) {rs : List Fact}
    (hmem : (q, rs) ∈ (ofRows w limit rows).leaves) :
    rs = Fact.under w q rows ∧ rs ≠ [] ∧ ¬ Overflows limit rs :=
  of_mem_leaves_ofRowsAt (p := []) (Nat.zero_add _) h
    (fun _ _ => EntityId.isUnder_iff.2 List.nil_prefix) hmem

end Layout

/-- A trie partitions facts into pages: its leaves number the pages in the order of their paths,
each page holds the facts under the path of its leaf, and the trie branches exactly where the facts
are over the limit and of several entities. -/
structure HashTrie.Partitions (t : HashTrie) (limit : Nat) (pages : List Page)
    (rows : List Fact) : Prop where
  regular : t.IsRegular
  depth_le : t.depth ≤ t.width.maxDepth
  numbers : t.leaves.map (·.2) = List.range pages.length
  ascending : (t.leaves.map (·.1)).Pairwise (· < ·)
  rows_eq : pages.flatMap (·.rows) = rows
  leaf : ∀ p i, (p, i) ∈ t.leaves → ∃ page, pages[i]? = some page ∧
    page.rows = Fact.under t.width p rows ∧
    ∀ f ∈ page.rows, t.width.compare? f.entity p = some .eq
  nonempty : ∀ page ∈ pages, page.rows ≠ []
  solo : ∀ page ∈ pages, limit < page.rows.length → ∃ e, ∀ f ∈ page.rows, f.entity = e
  branch : ∀ p, (∃ children, t.root.descend p = .branch children) ↔
    limit < (Fact.under t.width p rows).length ∧
      1 < (Fact.entities (Fact.under t.width p rows)).length

namespace Writer

variable {wr : Writer}

/-- A page of a write is what some leaf of the layout holds. -/
theorem exists_leaf_of_mem_pagesOf {page : Page} (h : page ∈ wr.pagesOf rows) :
    ∃ p, (p, page.rows) ∈ (Layout.ofRows wr.width wr.limit rows).leaves := by
  obtain ⟨rs, hrs, rfl⟩ := List.mem_map.1 h
  obtain ⟨⟨p, rs⟩, hmem, rfl⟩ := List.mem_map.1 hrs
  exact ⟨p, hmem⟩

theorem descend_trieOf_eq_branch_iff (h : Fact.IsGrouped rows) (p : Path) :
    (∃ children, (wr.trieOf rows).root.descend p = .branch children) ↔
      Layout.Overflows wr.limit (Fact.under wr.width p rows) := by
  rw [← Layout.reach_ofRows_eq_branch_iff h]
  have hnumber := Trie.reach_number (Layout.ofRows wr.width wr.limit rows) 0 p
  simp only [trieOf, Trie.descend_eq_branch_iff]
  cases hreach : (Layout.ofRows wr.width wr.limit rows).reach p with
  | absent =>
    simp only [hreach] at hnumber
    simp [hnumber]
  | leaf rs =>
    simp only [hreach] at hnumber
    obtain ⟨i, hi, -⟩ := hnumber
    simp [hi]
  | branch children => simpa [hreach] using hnumber

/-- The pages of a write partition its facts. -/
theorem partitions_trieOf (wr : Writer) (h : Fact.IsOrdered rows) :
    (wr.trieOf rows).Partitions wr.limit (wr.pagesOf rows) rows where
  regular := (divides_write wr rows).regular
  depth_le := (divides_write wr rows).regular.depth_le
  numbers := (divides_write wr rows).numbers
  ascending := List.pairwise_map.2 (divides_write wr rows).regular.pairwise_leaves
  rows_eq := flatMap_pagesOf wr h
  leaf p i hmem := by
    obtain ⟨rs, hi⟩ := Trie.mem_leaves_number.1 hmem
    obtain ⟨hrs, -, -⟩ := Layout.of_mem_leaves_ofRows h.isGrouped (List.mem_of_getElem? hi)
    refine ⟨⟨rs⟩, by simp [pagesOf, Trie.values, hi], hrs, fun f hf => ?_⟩
    have hunder : f.entity.isUnder wr.width p := by
      rw [hrs] at hf
      exact (List.mem_filter.1 hf).2
    exact (EntityId.isUnder_iff_compare? (EntityId.length_le_of_isUnder hunder)).1 hunder
  nonempty page hpage := by
    obtain ⟨p, hmem⟩ := exists_leaf_of_mem_pagesOf hpage
    exact (Layout.of_mem_leaves_ofRows h.isGrouped hmem).2.1
  solo page hpage hover := by
    obtain ⟨p, hmem⟩ := exists_leaf_of_mem_pagesOf hpage
    obtain ⟨-, hne, hfits⟩ := Layout.of_mem_leaves_ofRows h.isGrouped hmem
    obtain ⟨f, hf⟩ := List.exists_mem_of_ne_nil _ hne
    refine ⟨f.entity, fun g hg => ?_⟩
    by_contra hdiffer
    exact hfits ⟨hover, Fact.one_lt_length_entities_iff.2 ⟨g, hg, f, hf, hdiffer⟩⟩
  branch := descend_trieOf_eq_branch_iff h.isGrouped

/-- A write of ordered facts that allows oversized leaves partitions them, and so does the write
slice by slice. -/
theorem write_partitions (wr : Writer) (hallow : wr.oversized = .allow)
    (h : Fact.IsOrdered rows) : ∃ trie pages,
    (wr.write rows).value = ⟨pages, .ok trie⟩ ∧
    Layout.write? wr.width wr.limit rows = some (trie.root, pages) ∧
    trie.width = wr.width ∧ trie.Partitions wr.limit pages rows :=
  ⟨wr.trieOf rows, wr.pagesOf rows, value_write hallow h, Layout.write?_eq h, rfl,
    partitions_trieOf wr h⟩

/-- Two versions of an entity and one of the next, which only the last level tells apart. -/
def siblings : List Fact :=
  [⟨.ofNat 1, 3, 7, 8, .delete⟩, ⟨.ofNat 1, .start, .never, 5, .delete⟩,
    ⟨.ofNat 2, 0, 9, 6, .delete⟩]

theorem isOrdered_siblings : Fact.IsOrdered siblings := by
  unfold Fact.IsOrdered siblings
  decide

theorem write_partitions_siblings : ∃ trie pages,
    ((Writer.mk .two 1 .allow).write siblings).value = ⟨pages, .ok trie⟩ ∧
    Layout.write? .two 1 siblings = some (trie.root, pages) ∧
    trie.width = .two ∧ trie.Partitions 1 pages siblings :=
  write_partitions ⟨.two, 1, .allow⟩ rfl isOrdered_siblings

/-- The siblings part at the last of 64 levels, and the first of them keeps both its versions. -/
example : ((Writer.mk .two 1 .allow).trieOf siblings).leaves.map (fun l => (l.1.length, l.2)) =
    [(64, 0), (64, 1)] := by decide +kernel

end Writer

end Bitemporal
