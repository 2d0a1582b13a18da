import Mathlib
import Bitemporal.Plan.Basic
import Bitemporal.Proofs.Merge.Stable
import Bitemporal.Proofs.Trie.Path
import Bitemporal.Proofs.Trie.Reach

/-!
# The walk of several tries

The parts of a walk at a path are what the path leads to in each trie. The walk goes on below a path
while some part branches, so it ends at leaves only, and the ids that it is not told to leave out
lie under the paths where it ends, in the order in which it meets these paths.

## Main definitions

* `Plan.partsAt`: what a path leads to in each segment.
* `Plan.leavesAt`: the pages of these parts.
* `Plan.EndsAt`: a path where the walk may end.

## Main statements

* `Plan.mem_leavesAt`: the pages that reach under a path.
* `Plan.filterMap_under?`: a bucket below a path leads to the parts of the longer path.
* `Plan.mem_visits`: where the walk ends, all parts are leaves.
* `Plan.filter_visitsFrom`, `Plan.flatMap_covered_visits`: the walk covers ids in order.
-/

namespace Bitemporal.Plan

open scoped Linear

variable {w : BucketWidth} {segments : List Segment} {accept : Path → Bool} {p : Path}
  {height : Nat} {ids : List EntityId}

/-- What a path leads to in each segment that has anything there. -/
def partsAt (segments : List Segment) (p : Path) : List Part :=
  (segments.zipIdx.map fun (s, i) => Part.mk i (s.trie.root.reach p)).filter
    fun part => ¬ part.node.isAbsent

/-- The pages of the leaves that a path leads to. -/
def leavesAt (segments : List Segment) (p : Path) : List PageRef :=
  (partsAt segments p).filterMap Part.page?

theorem roots_eq (segments : List Segment) : roots segments = partsAt segments [] := by
  simp [roots, partsAt]

theorem mem_partsAt {part : Part} : part ∈ partsAt segments p ↔
    ∃ s, segments[part.segment]? = some s ∧ part.node = s.trie.root.reach p ∧
      part.node.isAbsent = false := by
  obtain ⟨i, node⟩ := part
  simp only [partsAt, List.mem_filter, List.mem_map, Prod.exists, List.mem_zipIdx_iff_getElem?,
    Part.mk.injEq, Bool.not_eq_true, decide_eq_true_eq]
  constructor
  · rintro ⟨⟨s, j, hs, rfl, rfl⟩, hnode⟩
    exact ⟨s, hs, rfl, hnode⟩
  · rintro ⟨s, hs, rfl, hnode⟩
    exact ⟨⟨s, i, hs, rfl, rfl⟩, hnode⟩

theorem mem_leavesAt {r : PageRef} : r ∈ leavesAt segments p ↔
    ∃ s, segments[r.segment]? = some s ∧ s.trie.root.reach p = .leaf r.page := by
  simp only [leavesAt, List.mem_filterMap, mem_partsAt]
  constructor
  · rintro ⟨⟨i, node⟩, ⟨s, hs, rfl, -⟩, hpage⟩
    rw [Part.page?] at hpage
    split at hpage
    · rename_i page hreach
      obtain rfl := Option.some_inj.1 hpage
      exact ⟨s, hs, hreach⟩
    · cases hpage
  · rintro ⟨s, hs, hreach⟩
    exact ⟨⟨r.segment, .leaf r.page⟩, ⟨s, hs, hreach.symm, rfl⟩, rfl⟩

theorem lt_of_mem_leavesAt {r : PageRef} (h : r ∈ leavesAt segments p) :
    r.segment < segments.length := by
  obtain ⟨s, hs, -⟩ := mem_leavesAt.1 h
  exact (List.getElem?_eq_some_iff.1 hs).1

/-- A bucket below a path leads to the parts of the longer path. -/
theorem filterMap_under? (segments : List Segment) (p : Path) (b : Nat) :
    (partsAt segments p).filterMap (Part.under? b) = partsAt segments (p ++ [b]) := by
  rw [partsAt, partsAt, ← List.filterMap_eq_filter, List.filterMap_filterMap,
    List.filterMap_map, List.filterMap_map]
  apply List.filterMap_congr
  rintro ⟨s, i⟩ _
  simp only [Function.comp, Trie.reach_append]
  cases hnode : s.trie.root.reach p with
  | absent => simp [Trie.isAbsent, Option.guard]
  | leaf page => simp [Trie.isAbsent, Option.guard, Part.under?]
  | branch children =>
    rw [Trie.reach_branch, Trie.reach_nil]
    have hunder : Part.under? b ⟨i, .branch children⟩ =
        if (children.getD b .absent).isAbsent then none
        else some ⟨i, children.getD b .absent⟩ := rfl
    have hbranch : (Trie.branch children).isAbsent = false := rfl
    cases hchild : (children.getD b .absent).isAbsent <;>
      simp [Option.guard, hbranch, hunder, hchild, -List.getD_eq_getElem?_getD]

/-! ## Where the walk ends -/

/-- A path that fits an id and leads to leaves only, at least one. -/
structure EndsAt (w : BucketWidth) (segments : List Segment) (p : Path) : Prop where
  length_le : p.length ≤ w.maxDepth
  nonempty : partsAt segments p ≠ []
  isLeaf : ∀ part ∈ partsAt segments p, part.node.isLeaf

theorem visitsFrom_of_refused (h : ¬ accept p) :
    visitsFrom w accept height (partsAt segments p) p = [⟨p, none⟩] := by
  rw [visitsFrom.eq_def]
  exact if_pos h

theorem visitsFrom_of_leaves (h : accept p)
    (hleaf : ∀ part ∈ partsAt segments p, part.node.isLeaf) :
    visitsFrom w accept height (partsAt segments p) p = [⟨p, some (leavesAt segments p)⟩] := by
  rw [visitsFrom.eq_def]
  dsimp only
  rw [if_neg (not_not.2 h), if_pos (List.all_eq_true.2 hleaf), leavesAt]

theorem visitsFrom_zero (h : accept p)
    (hleaf : ¬ ∀ part ∈ partsAt segments p, part.node.isLeaf) :
    visitsFrom w accept 0 (partsAt segments p) p = [⟨p, none⟩] := by
  rw [visitsFrom.eq_def]
  dsimp only
  rw [if_neg (not_not.2 h), if_neg fun hall => hleaf (List.all_eq_true.1 hall)]

theorem visitsFrom_succ (h : accept p)
    (hleaf : ¬ ∀ part ∈ partsAt segments p, part.node.isLeaf) :
    visitsFrom w accept (height + 1) (partsAt segments p) p =
      ⟨p, none⟩ :: (List.range w.fanOut).flatMap fun b =>
        if (partsAt segments (p ++ [b])).isEmpty then []
        else visitsFrom w accept height (partsAt segments (p ++ [b])) (p ++ [b]) := by
  rw [visitsFrom.eq_def]
  dsimp only
  rw [if_neg (not_not.2 h), if_neg fun hall => hleaf (List.all_eq_true.1 hall)]
  simp only [filterMap_under?]

/-- A walk from a path is refused there, ends at leaves, ends for want of levels, or goes on below
each bucket that leads to something. -/
theorem visitsFrom_cases (w : BucketWidth) (accept : Path → Bool) (height : Nat)
    (segments : List Segment) (p : Path) :
    (¬ accept p ∧ visitsFrom w accept height (partsAt segments p) p = [⟨p, none⟩]) ∨
    ((∀ part ∈ partsAt segments p, part.node.isLeaf) ∧
      visitsFrom w accept height (partsAt segments p) p = [⟨p, some (leavesAt segments p)⟩]) ∨
    (¬ (∀ part ∈ partsAt segments p, part.node.isLeaf) ∧ height = 0 ∧
      visitsFrom w accept height (partsAt segments p) p = [⟨p, none⟩]) ∨
    (¬ (∀ part ∈ partsAt segments p, part.node.isLeaf) ∧ ∃ n, height = n + 1 ∧
      visitsFrom w accept height (partsAt segments p) p =
        ⟨p, none⟩ :: (List.range w.fanOut).flatMap fun b =>
          if (partsAt segments (p ++ [b])).isEmpty then []
          else visitsFrom w accept n (partsAt segments (p ++ [b])) (p ++ [b])) := by
  by_cases haccept : accept p
  swap
  · exact .inl ⟨haccept, visitsFrom_of_refused haccept⟩
  by_cases hleaf : ∀ part ∈ partsAt segments p, part.node.isLeaf
  · exact .inr (.inl ⟨hleaf, visitsFrom_of_leaves haccept hleaf⟩)
  cases height with
  | zero => exact .inr (.inr (.inl ⟨hleaf, rfl, visitsFrom_zero haccept hleaf⟩))
  | succ n => exact .inr (.inr (.inr ⟨hleaf, n, rfl, visitsFrom_succ haccept hleaf⟩))

/-- The walk ends within the levels it is given, and only at leaves. -/
theorem mem_visitsFrom {v : Visit} (hne : partsAt segments p ≠ [])
    (hv : v ∈ visitsFrom w accept height (partsAt segments p) p) :
    v.path.length ≤ p.length + height ∧ ∀ pages, v.pages = some pages →
      pages = leavesAt segments v.path ∧ partsAt segments v.path ≠ [] ∧
        ∀ part ∈ partsAt segments v.path, part.node.isLeaf := by
  induction height using Nat.strong_induction_on generalizing p with
  | h height ih =>
    rcases visitsFrom_cases w accept height segments p with
      ⟨-, heq⟩ | ⟨hleaf, heq⟩ | ⟨-, -, heq⟩ | ⟨-, n, rfl, heq⟩ <;> rw [heq] at hv
    · rw [List.mem_singleton] at hv
      simp [hv]
    · rw [List.mem_singleton] at hv
      subst hv
      exact ⟨Nat.le_add_right _ _, fun pages h => ⟨(Option.some_inj.1 h).symm, hne, hleaf⟩⟩
    · rw [List.mem_singleton] at hv
      simp [hv]
    · rcases List.mem_cons.1 hv with rfl | hv
      · simp
      · obtain ⟨b, -, hv⟩ := List.mem_flatMap.1 hv
        split_ifs at hv with hempty
        · cases hv
        · have := ih n n.lt_succ_self (by simpa using hempty) hv
          rw [List.length_append, List.length_singleton] at this
          exact ⟨by omega, this.2⟩

/-! ## What the walk covers -/

/-- The ids under a path are the ids under its buckets, one bucket after the other. -/
theorem filter_isUnder_eq_flatMap (hids : ids.Pairwise (· < ·)) (hp : p.length < w.maxDepth) :
    ids.filter (EntityId.isUnder w p) =
      (List.range w.fanOut).flatMap fun b => ids.filter (EntityId.isUnder w (p ++ [b])) := by
  have hle : Stable.IsPreorder fun a b : EntityId => decide (a ≤ b) :=
    ⟨fun a b c hab hbc => by simp only [decide_eq_true_eq] at *; exact hab.trans hbc,
      fun a b => by simpa using le_total a b⟩
  have hsorted : (ids.filter (EntityId.isUnder w p)).Pairwise fun a b => decide (a ≤ b) :=
    (hids.filter _).imp fun h => decide_eq_true h.le
  have hclasses := @Stable.flatMap_filter _ _ _ hle hsorted _ (List.range w.fanOut)
    (fun b => EntityId.isUnder w (p ++ [b])) ?_ ?_
  · rw [← hclasses]
    apply List.flatMap_congr
    intro b _
    rw [List.filter_filter]
    apply List.filter_congr
    intro e _
    by_cases he : e.isUnder w (p ++ [b])
    · rw [he, EntityId.isUnder_of_prefix (List.prefix_append _ _) he, Bool.and_self]
    · simp [he]
  · refine List.pairwise_lt_range.imp fun hxy a b ha hb hba => ?_
    exact absurd (of_decide_eq_true hba) (not_le.2 (EntityId.lt_of_isUnder_append hxy ha hb))
  · intro e he
    refine ⟨w.bucketAt e p.length, List.mem_range.2 (w.bucketAt_lt _ _), ?_⟩
    exact EntityId.isUnder_concat_iff.2 ⟨(List.mem_filter.1 he).2, hp, rfl⟩

/-- Where not all parts are leaves, some part branches. -/
theorem exists_branch_of_not_leaves (h : ¬ ∀ part ∈ partsAt segments p, part.node.isLeaf) :
    ∃ part ∈ partsAt segments p, ∃ children, part.node = .branch children := by
  push Not at h
  obtain ⟨part, hpart, hleaf⟩ := h
  obtain ⟨s, -, -, hpresent⟩ := mem_partsAt.1 hpart
  refine ⟨part, hpart, ?_⟩
  cases hnode : part.node with
  | absent => simp [hnode, Trie.isAbsent] at hpresent
  | leaf page => simp [hnode, Trie.isLeaf] at hleaf
  | branch children => exact ⟨children, rfl⟩

/-- One bucket further down, the parts are less high. -/
theorem height_le_of_mem_partsAt {b : Nat}
    (hheight : ∀ part ∈ partsAt segments p, part.node.height ≤ height + 1) :
    ∀ part ∈ partsAt segments (p ++ [b]), part.node.height ≤ height := by
  intro part hpart
  obtain ⟨s, hs, hnode, -⟩ := mem_partsAt.1 hpart
  rw [hnode, Trie.reach_append]
  cases h : s.trie.root.reach p with
  | absent => simp [Trie.height]
  | leaf page => simp [Trie.height]
  | branch children =>
    rw [Trie.reach_branch, Trie.reach_nil]
    refine Trie.height_getD_lt ?_
    exact hheight ⟨part.segment, .branch children⟩ (mem_partsAt.2 ⟨s, hs, h.symm, rfl⟩)

/-- The ids that a visit leaves to its task. -/
def Visit.covered (w : BucketWidth) (ids : List EntityId) (v : Visit) : List EntityId :=
  if v.pages.isSome then ids.filter (EntityId.isUnder w v.path) else []

/-- The walk covers the ids under its path in order, if it accepts their paths and each of these
paths leads to something. -/
theorem filter_visitsFrom (hids : ids.Pairwise (· < ·))
    (hregular : ∀ s ∈ segments, s.trie.root.IsRegular w w.maxDepth)
    (haccept : ∀ e ∈ ids, ∀ p, e.isUnder w p → accept p)
    (hparts : ∀ e ∈ ids, ∀ p, e.isUnder w p → partsAt segments p ≠ [])
    (hheight : ∀ part ∈ partsAt segments p, part.node.height ≤ height) :
    (visitsFrom w accept height (partsAt segments p) p).flatMap (Visit.covered w ids) =
      ids.filter (EntityId.isUnder w p) := by
  induction height using Nat.strong_induction_on generalizing p with
  | h height ih =>
    rcases visitsFrom_cases w accept height segments p with
      ⟨hrefused, heq⟩ | ⟨hleaf, heq⟩ | ⟨hleaf, rfl, heq⟩ | ⟨hleaf, n, rfl, heq⟩ <;> rw [heq]
    · have hnone : ids.filter (EntityId.isUnder w p) = [] :=
        List.filter_eq_nil_iff.2 fun e he hu => hrefused (haccept e he p hu)
      simp [Visit.covered, hnone]
    · simp [Visit.covered]
    · obtain ⟨part, hpart, children, hbranch⟩ := exists_branch_of_not_leaves hleaf
      have := hheight part hpart
      rw [hbranch, Trie.height] at this
      omega
    · obtain ⟨part, hpart, children, hbranch⟩ := exists_branch_of_not_leaves hleaf
      have hp : p.length < w.maxDepth := by
        obtain ⟨s, hs, hnode, -⟩ := mem_partsAt.1 hpart
        by_contra hlen
        exact (hregular s (List.mem_of_getElem? hs)).reach_ne_branch (not_lt.1 hlen) children
          (hnode.symm.trans hbranch)
      rw [List.flatMap_cons, filter_isUnder_eq_flatMap hids hp, List.flatMap_assoc]
      simp only [Visit.covered, Option.isSome_none, Bool.false_eq_true, if_false, List.nil_append]
      apply List.flatMap_congr
      intro b _
      split_ifs with hempty
      · refine (List.filter_eq_nil_iff.2 fun e he hu => ?_).symm
        exact hparts e he _ hu (List.isEmpty_iff.1 hempty)
      · exact ih n n.lt_succ_self (height_le_of_mem_partsAt hheight)

/-! ## The walk from the root -/

/-- Where no trie is higher than there are levels, the walk is given no more levels. -/
theorem foldl_height_le (hheight : ∀ s ∈ segments, s.trie.root.height ≤ w.maxDepth) :
    ((partsAt segments []).map fun part => part.node.height).foldl max 0 ≤ w.maxDepth := by
  refine Trie.foldl_max_le_iff.2 ⟨Nat.zero_le _, fun n hn => ?_⟩
  obtain ⟨part, hpart, rfl⟩ := List.mem_map.1 hn
  obtain ⟨s, hs, hnode, -⟩ := mem_partsAt.1 hpart
  rw [hnode, Trie.reach_nil]
  exact hheight s (List.mem_of_getElem? hs)

/-- Where no trie is higher than there are levels, the paths of the walk fit an id. -/
theorem mem_visits {v : Visit} (hheight : ∀ s ∈ segments, s.trie.root.height ≤ w.maxDepth)
    (hv : v ∈ visits w segments accept) :
    v.path.length ≤ w.maxDepth ∧ ∀ pages, v.pages = some pages →
      pages = leavesAt segments v.path ∧ EndsAt w segments v.path := by
  rw [visits, roots_eq] at hv
  split_ifs at hv with hempty
  · cases hv
  · obtain ⟨hlength, hpages⟩ := mem_visitsFrom (by simpa using hempty) hv
    rw [List.length_nil, Nat.zero_add] at hlength
    have hle := hlength.trans (foldl_height_le hheight)
    refine ⟨hle, fun pages h => ?_⟩
    obtain ⟨heq, hne, hleaf⟩ := hpages pages h
    exact ⟨heq, hle, hne, hleaf⟩

/-- The walk covers all ids in order, if it accepts their paths and each of these paths leads to
something. -/
theorem flatMap_covered_visits (hids : ids.Pairwise (· < ·))
    (hregular : ∀ s ∈ segments, s.trie.root.IsRegular w w.maxDepth)
    (haccept : ∀ e ∈ ids, ∀ p, e.isUnder w p → accept p)
    (hparts : ∀ e ∈ ids, ∀ p, e.isUnder w p → partsAt segments p ≠ []) :
    (visits w segments accept).flatMap (Visit.covered w ids) = ids := by
  have hroot (e : EntityId) : e.isUnder w [] := EntityId.isUnder_iff.2 List.nil_prefix
  rw [visits, roots_eq]
  split_ifs with hempty
  · refine (List.eq_nil_iff_forall_not_mem.2 fun e he => ?_).symm
    exact hparts e he [] (hroot e) (List.isEmpty_iff.1 hempty)
  · rw [filter_visitsFrom hids hregular haccept hparts fun part hpart => ?_]
    · exact List.filter_eq_self.2 fun e _ => hroot e
    · exact (Trie.foldl_max_le_iff.1 le_rfl).2 _ (List.mem_map_of_mem hpart)

end Bitemporal.Plan
