import Mathlib
import Bitemporal.Proofs.Plan.Build
import Bitemporal.Proofs.Plan.Choice
import Bitemporal.Proofs.Trie.Leaves

/-!
# What a plan covers

The walk goes down one bucket after the other, so the paths where it ends part at a bucket, in
ascending order. Each id under a leaf of some trie lies under exactly one of these paths, and the
task of that path lists the page of the leaf.

## Main definitions

* `Path.PartsBefore`: two paths part at a bucket.

## Main statements

* `Plan.visitsFrom_induct`: induction on the walk.
* `Plan.pairwise_visitsFrom`: the paths where the walk ends part at a bucket.
* `Plan.ofQuery_memory_yields`: the plan of a query over segments in memory.
* `Plan.ofQuery_leaf`: the plan of a query over one page.
* `Plan.exists_task`: the task that an id falls to.
* `Plan.all_covers`: the plan over every page.
-/

namespace Bitemporal

variable {w : BucketWidth} {segments : List Segment} {e : EntityId} {p : Path}

namespace Path

/-- Two paths part at a bucket, the first of them to the lesser one. -/
def PartsBefore (a b : Path) : Prop :=
  ∃ p x y q r, a = p ++ x :: q ∧ b = p ++ y :: r ∧ x < y

variable {a b : Path}

theorem PartsBefore.lt (h : PartsBefore a b) : a < b := by
  obtain ⟨p, x, y, q, r, rfl, rfl, hxy⟩ := h
  exact List.append_left_lt (List.Lex.rel hxy)

theorem PartsBefore.not_prefix (h : PartsBefore a b) : ¬ a <+: b ∧ ¬ b <+: a := by
  obtain ⟨p, x, y, q, r, rfl, rfl, hxy⟩ := h
  simp only [List.prefix_append_right_inj, List.cons_prefix_cons, not_and]
  exact ⟨fun heq => absurd heq hxy.ne, fun heq => absurd heq hxy.ne'⟩

/-- No id lies under both of two paths that part. -/
theorem PartsBefore.not_isUnder (h : PartsBefore a b) (ha : e.isUnder w a) :
    ¬ e.isUnder w b := by
  intro hb
  rw [EntityId.isUnder_iff] at ha hb
  rcases List.prefix_or_prefix_of_prefix ha hb with hab | hba
  · exact h.not_prefix.1 hab
  · exact h.not_prefix.2 hba

end Path

namespace Plan

variable {accept : Path → Bool} {height : Nat}

/-! ## The paths of the walk -/

/-- Induction on the walk: it meets a path alone, or it meets a path and then walks on below each
bucket that leads to something. -/
theorem visitsFrom_induct {motive : Path → List Visit → Prop}
    (alone : ∀ p pages, motive p [⟨p, pages⟩])
    (onward : ∀ p (below : Nat → List Visit),
      (∀ b, below b = [] ∨ motive (p ++ [b]) (below b)) →
      motive p (⟨p, none⟩ :: (List.range w.fanOut).flatMap below)) :
    motive p (visitsFrom w accept height (partsAt segments p) p) := by
  induction height using Nat.strong_induction_on generalizing p with
  | h height ih =>
    rcases visitsFrom_cases w accept height segments p with
      ⟨-, heq⟩ | ⟨-, heq⟩ | ⟨-, -, heq⟩ | ⟨-, n, rfl, heq⟩ <;> rw [heq]
    · exact alone p none
    · exact alone p _
    · exact alone p none
    · refine onward p _ fun b => ?_
      split
      · exact .inl rfl
      · exact .inr (ih n n.lt_succ_self)

/-- The paths where a walk ends go on from its first path and part at a bucket. Both are carried
through the walk together: what is met below two buckets parts because it goes on from them. -/
theorem pairwise_visitsFrom :
    (∀ v ∈ visitsFrom w accept height (partsAt segments p) p, p <+: v.path) ∧
      (visitsFrom w accept height (partsAt segments p) p).Pairwise fun a b =>
        a.pages.isSome → b.pages.isSome → Path.PartsBefore a.path b.path := by
  refine visitsFrom_induct (motive := fun p l => (∀ v ∈ l, p <+: v.path) ∧
    l.Pairwise fun a b => a.pages.isSome → b.pages.isSome → Path.PartsBefore a.path b.path) ?_ ?_
  · simp
  · intro p below ih
    have hbelow (b : Nat) : ∀ v ∈ below b, p ++ [b] <+: v.path := by
      rcases ih b with hnil | ih
      · simp [hnil]
      · exact ih.1
    refine ⟨fun v hv => ?_, List.pairwise_cons.2 ⟨fun v _ hnone => ?_, ?_⟩⟩
    · rcases List.mem_cons.1 hv with rfl | hv
      · exact List.prefix_rfl
      · obtain ⟨b, -, hv⟩ := List.mem_flatMap.1 hv
        exact (List.prefix_append p [b]).trans (hbelow b v hv)
    · cases hnone
    · refine List.pairwise_flatMap.2 ⟨fun b _ => ?_, List.pairwise_lt_range.imp ?_⟩
      · rcases ih b with hnil | ih
        · simp [hnil]
        · exact ih.2
      · intro x y hxy a ha b hb _ _
        obtain ⟨q, hq⟩ := hbelow x a ha
        obtain ⟨r, hr⟩ := hbelow y b hb
        exact ⟨p, x, y, q, r, by simp [← hq], by simp [← hr], hxy⟩

/-- The tasks of a walk part at a bucket. -/
theorem pairwise_tasks (kept : Path → List PageRef) :
    ((visits w segments accept).filterMap (taskFor kept)).Pairwise fun a b =>
      Path.PartsBefore a.path b.path := by
  have hvisits : (visits w segments accept).Pairwise fun a b =>
      a.pages.isSome → b.pages.isSome → Path.PartsBefore a.path b.path := by
    rw [visits, roots_eq]
    split
    · exact .nil
    · exact pairwise_visitsFrom.2
  refine List.Pairwise.filterMap _ ?_ hvisits
  intro a b hparts s hs t ht
  simp only [taskFor, Option.ite_none_right_eq_some, Option.some_inj] at hs ht
  obtain ⟨⟨ha, -⟩, rfl⟩ := hs
  obtain ⟨⟨hb, -⟩, rfl⟩ := ht
  exact hparts ha hb

/-- An id lies under the path of one task at most. -/
theorem eq_of_isUnder {kept : Path → List PageRef} {t t' : MergeTask}
    (ht : t ∈ (visits w segments accept).filterMap (taskFor kept))
    (ht' : t' ∈ (visits w segments accept).filterMap (taskFor kept))
    (h : e.isUnder w t.path) (h' : e.isUnder w t'.path) : t = t' := by
  have hapart : ((visits w segments accept).filterMap (taskFor kept)).Pairwise fun a b =>
      ¬ (e.isUnder w a.path ∧ e.isUnder w b.path) :=
    (pairwise_tasks kept).imp fun hab hboth => hab.not_isUnder hboth.1 hboth.2
  have hsymm : Std.Symm fun a b : MergeTask => ¬ (e.isUnder w a.path ∧ e.isUnder w b.path) :=
    ⟨fun _ _ hab hba => hab hba.symm⟩
  by_contra hne
  exact hapart.forall ht ht' hne ⟨h, h'⟩

/-! ## The pages of a task -/

/-- Some page reaches under a path where the walk ends. -/
theorem EndsAt.leavesAt_ne_nil (h : EndsAt w segments p) : leavesAt segments p ≠ [] := by
  obtain ⟨part, hpart⟩ := List.exists_mem_of_ne_nil _ h.nonempty
  have hleaf := h.isLeaf part hpart
  cases hnode : part.node with
  | absent => simp [hnode, Trie.isLeaf] at hleaf
  | leaf page =>
    exact List.ne_nil_of_mem (List.mem_filterMap.2 ⟨part, hpart, by rw [Part.page?, hnode]⟩)
  | branch children => simp [hnode, Trie.isLeaf] at hleaf

/-- The pages that reach under a path are those of the leaves on the way to it. -/
theorem mem_leavesAt_iff_leaves {i page : Nat}
    (hregular : ∀ s ∈ segments, s.trie.root.IsRegular w w.maxDepth) :
    ⟨i, page⟩ ∈ leavesAt segments p ↔
      ∃ s q, segments[i]? = some s ∧ q <+: p ∧ (q, page) ∈ s.trie.leaves := by
  rw [mem_leavesAt]
  constructor
  · rintro ⟨s, hs, hreach⟩
    obtain ⟨q, hq⟩ := (hregular s (List.mem_of_getElem? hs)).reach_eq_leaf_iff.1 hreach
    exact ⟨s, q, hs, hq⟩
  · rintro ⟨s, q, hs, hq⟩
    exact ⟨s, hs, (hregular s (List.mem_of_getElem? hs)).reach_eq_leaf_iff.2 ⟨q, hq⟩⟩

/-! ## Segments in memory -/

/-- The plan of a query over segments in memory keeps every page of each task. -/
theorem ofQuery_memory_yields (hwidth : ∀ s ∈ segments, s.width = w)
    (hheight : ∀ s ∈ segments, s.trie.root.height ≤ w.maxDepth)
    (hmemory : ∀ s ∈ segments, ∃ m, s = .memory m) (hne : segments ≠ []) (q : Query) :
    (ofQuery segments q).Yields False
      ((visits w segments fun p => (asksUnder segments q p).getD true).filterMap
        (taskFor (leavesAt segments))) :=
  .bind (build_yields hwidth hheight (fun _ => exists_asksUnder_eq hwidth hne q)
    fun p _ => choosePages_memory hmemory q p)
  (.bind (.of_result (Engine.result_count _)) (.pure _))

/-! ## A segment of one page -/

/-- The plan over a segment that is one page, if that page is relevant and no ids are asked for. -/
theorem ofQuery_leaf {s : Segment} {q : Query} {i : Nat} (hroot : s.trie.root = .leaf i)
    (hselector : q.selector = none) (hjudge : judge? [s] q ⟨0, i⟩ = some .relevant) :
    (ofQuery [s] q).result = .ok [⟨[], [⟨0, i⟩]⟩] := by
  have hroots (p : Path) : partsAt [s] p = [⟨0, .leaf i⟩] := by
    simp [partsAt, hroot, Trie.isAbsent]
  have hleaves (p : Path) : leavesAt [s] p = [⟨0, i⟩] := by
    rw [leavesAt, hroots]
    rfl
  have hchoose (p : Path) : ∃ c, (choosePages [s] q (leavesAt [s] p)).result = .ok c ∧
      c.getD [] = leavesAt [s] p :=
    choosePages_relevant (pairwise_leavesAt _ p) (by simpa [hleaves] using hjudge)
  have hasks (p : Path) : asksUnder [s] q p = some true := by simp only [asksUnder, hselector]
  have hvisits : visits s.width [s] (fun p => (asksUnder [s] q p).getD true) =
      [⟨[], some [⟨0, i⟩]⟩] := by
    simp only [visits, roots_eq, hroots, hasks]
    rfl
  have hplan : (build [s] (asksUnder [s] q) (choosePages [s] q)).Yields False _ :=
    build_yields (List.forall_mem_singleton.2 rfl)
      (List.forall_mem_singleton.2 (by simp [hroot, Trie.height]))
      (fun p _ => ⟨true, hasks p⟩) fun p _ => hchoose p
  rw [hvisits] at hplan
  have hyields : (ofQuery [s] q).Yields False _ :=
    hplan.bind (.bind (.of_result (Engine.result_count _)) (.pure _))
  simpa [taskFor, hleaves] using hyields.result

/-! ## What an id falls to -/

section Leaf

variable {q : Path} {i page : Nat} {s : Segment}

/-- A path of an id leads to something if another path of the id leads to a leaf. -/
theorem partsAt_ne_nil (hs : segments[i]? = some s) (hq : s.trie.root.reach q = .leaf page)
    (heq : e.isUnder w q) (hep : e.isUnder w p) : partsAt segments p ≠ [] := by
  have hpresent : (s.trie.root.reach p).isAbsent = false := by
    have hprefix := List.prefix_or_prefix_of_prefix (EntityId.isUnder_iff.1 heq)
      (EntityId.isUnder_iff.1 hep)
    rcases Trie.reach_of_prefix_or_prefix hq hprefix with hp | ⟨children, hp⟩ <;> rw [hp] <;> rfl
  have hpart : Part.mk i (s.trie.root.reach p) ∈ partsAt segments p :=
    mem_partsAt.2 ⟨s, hs, rfl, hpresent⟩
  exact List.ne_nil_of_mem hpart

/-- Where the walk ends, a path of an id leads to the leaf that any other path of it leads to. -/
theorem EndsAt.mem_leavesAt (h : EndsAt w segments p) (hs : segments[i]? = some s)
    (hq : s.trie.root.reach q = .leaf page) (heq : e.isUnder w q) (hep : e.isUnder w p) :
    ⟨i, page⟩ ∈ leavesAt segments p := by
  have hprefix := List.prefix_or_prefix_of_prefix (EntityId.isUnder_iff.1 heq)
    (EntityId.isUnder_iff.1 hep)
  rcases Trie.reach_of_prefix_or_prefix hq hprefix with hp | ⟨children, hp⟩
  · exact Plan.mem_leavesAt.2 ⟨s, hs, hp⟩
  · cases h.isLeaf ⟨i, .branch children⟩ (mem_partsAt.2 ⟨s, hs, hp.symm, rfl⟩)

/-- An id under a leaf falls to a task of the plan over every page. -/
theorem exists_task (hregular : ∀ s ∈ segments, s.trie.root.IsRegular w w.maxDepth)
    (hs : segments[i]? = some s) (hq : s.trie.root.reach q = .leaf page) (heq : e.isUnder w q) :
    ∃ t ∈ (visits w segments fun _ => true).filterMap (taskFor (leavesAt segments)),
      e.isUnder w t.path := by
  have hcover : (visits w segments fun _ => true).flatMap (Visit.covered w [e]) = [e] := by
    refine flatMap_covered_visits (List.pairwise_singleton _ e) hregular (fun _ _ _ _ => rfl) ?_
    intro e' he' p hp
    obtain rfl := List.mem_singleton.1 he'
    exact partsAt_ne_nil hs hq heq hp
  have hmem : e ∈ (visits w segments fun _ => true).flatMap (Visit.covered w [e]) := by
    simp [hcover]
  obtain ⟨v, hv, hcovered⟩ := List.mem_flatMap.1 hmem
  rw [Visit.covered] at hcovered
  split_ifs at hcovered with hpages
  · have hev : e.isUnder w v.path := (List.mem_filter.1 hcovered).2
    obtain ⟨pages, hpages'⟩ := Option.isSome_iff_exists.1 hpages
    have hends := ((mem_visits (fun s hs => (hregular s hs).height_le) hv).2 pages hpages').2
    refine ⟨⟨v.path, leavesAt segments v.path⟩, List.mem_filterMap.2 ⟨v, hv, ?_⟩, hev⟩
    exact if_pos ⟨hpages, hends.leavesAt_ne_nil⟩
  · cases hcovered

end Leaf

/-- The plan over every page of segments with regular tries. Its tasks ascend and no path of a task
is a prefix of another. A task lists, in the order of the segments, the pages whose leaves reach
under its path, at least one. Every id under a leaf lies under the path of exactly one task, which
lists the page of that leaf. -/
theorem all_covers (h : ∀ s ∈ segments, s.width = w ∧ s.trie.IsRegular) :
    ∃ tasks, (Plan.all segments).result = .ok tasks ∧
      tasks.Pairwise (fun a b => a.path < b.path ∧ ¬ a.path <+: b.path ∧ ¬ b.path <+: a.path) ∧
      (∀ t ∈ tasks, t.pages ≠ [] ∧ t.pages.Pairwise (·.segment < ·.segment) ∧
        ∀ i page, ⟨i, page⟩ ∈ t.pages ↔
          ∃ s q, segments[i]? = some s ∧ q <+: t.path ∧ (q, page) ∈ s.trie.leaves) ∧
      ∀ i s q page, segments[i]? = some s → (q, page) ∈ s.trie.leaves →
        ∀ e, w.compare? e q = some .eq →
          ∃ t ∈ tasks, w.compare? e t.path = some .eq ∧ ⟨i, page⟩ ∈ t.pages ∧
            ∀ t' ∈ tasks, w.compare? e t'.path = some .eq → t' = t := by
  have hregular : ∀ s ∈ segments, s.trie.root.IsRegular w w.maxDepth := by
    intro s hs
    obtain ⟨rfl, hregular⟩ := h s hs
    exact hregular
  have hheight : ∀ s ∈ segments, s.trie.root.height ≤ w.maxDepth :=
    fun s hs => (hregular s hs).height_le
  refine ⟨_, (all_yields (fun s hs => (h s hs).1) hheight).result, ?_, ?_, ?_⟩
  · exact (pairwise_tasks _).imp fun hab => ⟨hab.lt, hab.not_prefix⟩
  · intro t ht
    obtain ⟨-, ht, hne⟩ := of_mem_tasks hheight ht
    rw [ht]
    exact ⟨hne, pairwise_leavesAt segments _, fun i page => mem_leavesAt_iff_leaves hregular⟩
  · intro i s q page hs hmem e he
    have hsegment := List.mem_of_getElem? hs
    have hreach := (hregular s hsegment).reach_eq_leaf_iff.2 ⟨q, List.prefix_rfl, hmem⟩
    have hlength := (hregular s hsegment).length_path_le _ hmem
    rw [← EntityId.isUnder_iff_compare? hlength] at he
    obtain ⟨t, ht, het⟩ := exists_task hregular hs hreach he
    have hends := of_mem_tasks hheight ht
    have hcompare := (EntityId.isUnder_iff_compare? hends.1.length_le).1 het
    refine ⟨t, ht, hcompare, ?_, fun t' ht' het' => ?_⟩
    · rw [hends.2.1]
      exact hends.1.mem_leavesAt hs hreach he het
    · have hlength' := (of_mem_tasks hheight ht').1.length_le
      rw [← EntityId.isUnder_iff_compare? hlength'] at het'
      exact eq_of_isUnder ht' ht het' het

/-- A leaf above a branch: the least id falls to one task, which lists both pages that reach it. -/
theorem all_covers_branch :
    ∃ tasks, (Plan.all [.memory ⟨"leaf", ⟨.leaf 0, .two⟩, []⟩,
        .memory ⟨"branch", ⟨.branch [.leaf 0, .absent, .absent, .leaf 1], .two⟩, []⟩]).result =
          .ok tasks ∧
      ∃ t ∈ tasks, BucketWidth.two.compare? (.ofNat 0) t.path = some .eq ∧
        ⟨0, 0⟩ ∈ t.pages ∧ ⟨1, 0⟩ ∈ t.pages := by
  have hregular : ∀ s ∈ [Segment.memory ⟨"leaf", ⟨.leaf 0, .two⟩, []⟩,
      .memory ⟨"branch", ⟨.branch [.leaf 0, .absent, .absent, .leaf 1], .two⟩, []⟩],
      s.width = .two ∧ s.trie.IsRegular := by
    simp [Segment.width, Segment.trie, HashTrie.IsRegular, Trie.IsRegular, Trie.AreRegular,
      BucketWidth.maxDepth, BucketWidth.bits, BucketWidth.fanOut]
  obtain ⟨tasks, htasks, -, -, hcover⟩ := all_covers hregular
  obtain ⟨t, ht, het, hpage, -⟩ := hcover 1 _ [0] 0 rfl
    (by simp [HashTrie.leaves, Segment.trie, Trie.leaves, Trie.childLeaves]) (.ofNat 0) (by decide)
  obtain ⟨t', ht', het', hpage', hsame⟩ := hcover 0 _ [] 0 rfl
    (by simp [HashTrie.leaves, Segment.trie, Trie.leaves]) (.ofNat 0) rfl
  obtain rfl := hsame t ht het
  exact ⟨tasks, htasks, t, ht, het, hpage', hpage⟩

end Plan

end Bitemporal
