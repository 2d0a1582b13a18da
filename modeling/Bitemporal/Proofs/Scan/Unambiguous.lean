import Mathlib
import Bitemporal.Proofs.Scan.Rising
import Bitemporal.Proofs.Scan.Visibility

/-!
# Answers without ambiguity

A scan checks the system times of an entity from row to row and takes a row of another id for the
beginning of another entity. Where ids never go back in a page, all rows of an entity stand together
in the merge of its task, so a scan that does not fail gives one row of an entity at a point of both
times at most. Where they do go back, the rows that return are read as a history of their own, and
two rows of one entity may hold at the same point.

## Main definitions

* `OutputRow.AreUnambiguous`: one row of an entity at a point at most.

## Main statements

* `Query.areUnambiguous_answer`: what ordered rows show.
* `Scan.collect_unambiguous`: a scan of pages in memory fails or is unambiguous.
* `Scan.collect_scattered`: an entity that comes back in a page.
-/

namespace Bitemporal

open scoped Linear

variable {w : BucketWidth} {q : Query} {e : EntityId} {f : Fact} {rows : List Fact}
  {r : OutputRow} {steps : List Step} {v t : Instant} {segs : List MemorySegment}

/-- At each point of both times there is one row of an entity at most. -/
def OutputRow.AreUnambiguous (rows : List OutputRow) : Prop :=
  ∀ e v t, (rows.filter fun r => r.entity = e && r.covers v t).length ≤ 1

/-! ## Answers -/

namespace Query

/-- Rows are clipped to the windows. -/
theorem holds_of_covers (hr : r ∈ q.rowsAgainst f steps) (hcovers : r.covers v t) :
    q.bounds.valid.holds v ∧ q.bounds.system.holds t := by
  rw [rowsAgainst] at hr
  cases hdoc : q.shownDoc? f with
  | none => simp [hdoc] at hr
  | some doc =>
    rw [hdoc] at hr
    obtain ⟨tile, -, rfl⟩ := List.mem_map.1 hr
    simp only [OutputRow.covers, rowOf, Window.clip, decide_eq_true_eq, max_le_iff, lt_min_iff]
      at hcovers
    exact ⟨⟨hcovers.1.1.2, hcovers.1.2.2⟩, hcovers.2.1.2, hcovers.2.2.2⟩

/-- A history shows one row at a point at most. -/
theorem length_filter_covers_shown (hrows : rows.Pairwise fun f g => g.systemFrom ≤ f.systemFrom)
    (v t : Instant) : ((q.shown rows).filter (OutputRow.covers v t)).length ≤ 1 := by
  by_cases hin : q.bounds.valid.holds v ∧ q.bounds.system.holds t
  · rw [← List.length_map (·.doc), filter_covers_shown hin.1 hin.2 hrows]
    exact Option.length_toList_le
  · have hnone : (q.shown rows).filter (OutputRow.covers v t) = [] := by
      refine List.filter_eq_nil_iff.2 fun r hr hcovers => hin ?_
      obtain ⟨f, -, steps, hr⟩ := exists_of_mem_shownFrom hr
      exact holds_of_covers hr hcovers
    simp [hnone]

/-- What ordered rows show is unambiguous. -/
theorem areUnambiguous_answer (h : Fact.IsOrdered rows) {ids : List EntityId}
    (hids : ids.Pairwise (· < ·)) (hmem : ∀ f ∈ rows, f.entity ∈ ids) :
    OutputRow.AreUnambiguous (q.answer ids rows) := by
  intro e v t
  rw [OutputRow.filter_entity_covers, filter_answer hids hmem]
  split
  · exact length_filter_covers_shown (h.pairwise_versions e) v t
  · simp

/-- The rows of an answer are of the entities that it asks for. -/
theorem mem_of_mem_answer {ids : List EntityId} (hr : r ∈ q.answer ids rows) : r.entity ∈ ids := by
  obtain ⟨e, he, hr⟩ := List.mem_flatMap.1 hr
  exact entity_of_mem_answer hr ▸ he

end Query

/-! ## Scans -/

namespace Scan

/-- Tasks whose paths part show rows of different entities. -/
theorem areUnambiguous_flatMap {tasks : List MergeTask} {shown : MergeTask → List OutputRow}
    (hpaths : tasks.Pairwise fun a b => Path.PartsBefore a.path b.path)
    (hunder : ∀ t ∈ tasks, ∀ r ∈ shown t, r.entity.isUnder w t.path)
    (hshown : ∀ t ∈ tasks, OutputRow.AreUnambiguous (shown t)) :
    OutputRow.AreUnambiguous (tasks.flatMap shown) := by
  induction tasks with
  | nil => simp [OutputRow.AreUnambiguous]
  | cons task rest ih =>
    rw [List.pairwise_cons] at hpaths
    rw [List.forall_mem_cons] at hunder hshown
    intro e v t
    rw [List.flatMap_cons, List.filter_append, List.length_append]
    by_cases he : ∃ r ∈ shown task, r.entity = e
    · obtain ⟨r, hr, rfl⟩ := he
      have hnone : (rest.flatMap shown).filter
          (fun s => s.entity = r.entity && s.covers v t) = [] := by
        refine List.filter_eq_nil_iff.2 fun s hs hsame => ?_
        obtain ⟨other, hother, hs⟩ := List.mem_flatMap.1 hs
        have hentity : s.entity = r.entity := by simp_all
        exact (hpaths.1 other hother).not_isUnder (hunder.1 r hr)
          (hentity ▸ hunder.2 other hother s hs)
      rw [hnone]
      exact hshown.1 r.entity v t
    · have hnone : (shown task).filter (fun s => s.entity = e && s.covers v t) = [] := by
        refine List.filter_eq_nil_iff.2 fun s hs hsame => he ⟨s, hs, ?_⟩
        simp_all
      rw [hnone, List.length_nil, Nat.zero_add]
      exact ih hpaths.2 hunder.2 hshown.2 e v t

namespace AreReadable

variable (h : AreReadable w segs) {task : MergeTask} (htask : task.IsWhole w segs)
include h htask

/-- A task fails for malformed input, or its merged rows are ordered and it shows their
histories. -/
theorem result_task_cases (d : Disk) (q : Query) :
    (∃ message, (Scan.task d (segs.map .memory) q task).result =
      .error (.error (.malformed message))) ∨
    Fact.IsOrdered (mergedRows w segs task) ∧
      (Scan.task d (segs.map .memory) q task).result =
        .ok (q.answer (Fact.entities (mergedRows w segs task)) (mergedRows w segs task)) := by
  rw [h.result_task htask]
  by_cases hordered : Fact.IsOrdered (mergedRows w segs task)
  · refine .inr ⟨hordered, ?_⟩
    rw [Query.replay_eq hordered hordered.pairwise_entities
      fun f hf => Fact.mem_entities.2 ⟨f, hf, rfl⟩]
    rfl
  · rw [← Query.exists_replay_iff (h.isGrouped_mergedRows htask) (q := q)] at hordered
    cases hreplay : q.replay (mergedRows w segs task) with
    | ok rows => exact absurd ⟨rows, hreplay⟩ hordered
    | error fault => exact .inl ⟨_, rfl⟩

omit h htask in
theorem isUnder_of_mem_mergedRows (hf : f ∈ mergedRows w segs task) :
    f.entity.isUnder w task.path := by
  obtain ⟨l, hl, hf⟩ := Fact.mem_mergeAll.1 hf
  obtain ⟨page, -, rfl⟩ := List.mem_map.1 hl
  exact (List.mem_filter.1 hf).2

omit htask in
/-- A scan fails for malformed input or is unambiguous. -/
theorem collect_cases (d : Disk) (q : Query) :
    (∃ message, (Scan.collect d (segs.map .memory) q).result =
      .error (.error (.malformed message))) ∨
    ∃ out, (Scan.collect d (segs.map .memory) q).result = .ok out ∧
      OutputRow.AreUnambiguous out := by
  obtain ⟨tasks, hplan, hwhole, hpaths⟩ := h.exists_plan q
  rw [result_collect_of_plan hplan]
  cases hparts : tasks.mapM fun t => (Scan.task d (segs.map .memory) q t).result with
  | error f =>
    obtain ⟨t, ht, hf⟩ := exists_of_mapM_error hparts
    rcases h.result_task_cases (hwhole t ht) d q with ⟨message, hmessage⟩ | ⟨-, hshown⟩
    · obtain rfl := Except.error.inj (hf.symm.trans hmessage)
      exact .inl ⟨message, rfl⟩
    · cases hf.symm.trans hshown
  | ok parts =>
    let shown (t : MergeTask) : List OutputRow :=
      q.answer (Fact.entities (mergedRows w segs t)) (mergedRows w segs t)
    have htasks : ∀ t ∈ tasks, Fact.IsOrdered (mergedRows w segs t) ∧
        (Scan.task d (segs.map .memory) q t).result = .ok (shown t) := by
      intro t ht
      obtain ⟨rows, hrows⟩ := exists_of_mapM_ok hparts t ht
      rcases h.result_task_cases (hwhole t ht) d q with ⟨message, hmessage⟩ | hshown
      · cases hrows.symm.trans hmessage
      · exact hshown
    have hsame : parts = tasks.map shown :=
      eq_map_of_mapM_ok hparts fun t ht => (htasks t ht).2
    refine .inr ⟨_, rfl, ?_⟩
    rw [hsame, ← List.flatMap_def]
    refine areUnambiguous_flatMap (w := w) hpaths (fun t _ r hr => ?_) fun t ht =>
      Query.areUnambiguous_answer (htasks t ht).1 (htasks t ht).1.pairwise_entities
        fun f hf => Fact.mem_entities.2 ⟨f, hf, rfl⟩
    obtain ⟨f, hf, hentity⟩ := Fact.mem_entities.1 (Query.mem_of_mem_answer hr)
    exact hentity ▸ isUnder_of_mem_mergedRows hf

end AreReadable

/-- Segments without a common level width are malformed. -/
theorem malformed_of_commonWidth {segments : List Segment} {e : Error}
    (h : Plan.commonWidth segments = .error e) : ∃ message, e = .malformed message := by
  unfold Plan.commonWidth at h
  split at h
  · cases h
  · split at h
    · cases h
    · exact ⟨_, (Except.error.inj h).symm⟩

/-- A scan of segments in memory that were accepted, with all branches above the last level and in
whose pages ids never go back, fails for malformed input or is unambiguous. -/
theorem collect_unambiguous
    (haccepted : ∀ s ∈ segs, MemorySegment.ofParts s.name s.trie s.pages = .ok s)
    (hheight : ∀ s ∈ segs, s.trie.root.height ≤ s.trie.width.maxDepth)
    (hgrouped : ∀ s ∈ segs, ∀ pg ∈ s.pages, Fact.IsGrouped pg.rows) (d : Disk) (q : Query) :
    (∃ message, (Scan.collect d (segs.map .memory) q).result =
      .error (.error (.malformed message))) ∨
    ∃ out, (Scan.collect d (segs.map .memory) q).result = .ok out ∧
      OutputRow.AreUnambiguous out := by
  cases hcommon : Plan.commonWidth (segs.map Segment.memory) with
  | error e =>
    obtain ⟨message, rfl⟩ := malformed_of_commonWidth hcommon
    refine .inl ⟨message, ?_⟩
    rw [Scan.collect, Cursor.ofQuery, Plan.ofQuery, Plan.build, hcommon]
    rfl
  | ok w =>
    have hwidth : ∀ s ∈ segs, s.trie.width = w := fun s hs =>
      width_of_commonWidth hcommon (.memory s) (List.mem_map_of_mem hs)
    have h : AreReadable w segs :=
      ⟨hwidth, fun s hs => hwidth s hs ▸ hheight s hs, haccepted, hgrouped⟩
    exact h.collect_cases d q

/-- The only task of one page in memory replays its rows as they stand. -/
theorem result_task_onePage (d : Disk) (name : String) (w : BucketWidth) (rows : List Fact)
    (q : Query) :
    (Scan.task d [.memory (.onePage name w rows)] q ⟨[], [⟨0, 0⟩]⟩).result =
      (q.replay rows).mapError fun fault => .error (.malformed fault.rising.message) := by
  have hrows : (MergeTask.rows [.memory (.onePage name w rows)] ⟨[], [⟨0, 0⟩]⟩ [⟨rows⟩]).result =
      .ok rows := by
    obtain ⟨found, hfound, hfacts⟩ := Option.map_eq_some_iff.1 (mergeRows?_root (w := w) ⟨rows⟩)
    have hwidth : MergeTask.width [.memory (.onePage name w rows)] ⟨[], [⟨0, 0⟩]⟩ = w := rfl
    rw [MergeTask.rows, hwidth, hfound]
    exact congrArg Except.ok hfacts
  have hmerged : (merged d [.memory (.onePage name w rows)] ⟨[], [⟨0, 0⟩]⟩).result = .ok rows :=
    hrows
  exact result_task_of_merged hmerged

/-- A scan of one page in memory has one task, if no entities are selected. -/
theorem result_ofQuery_onePage (name : String) (w : BucketWidth) (rows : List Fact) {q : Query}
    (h : q.selector = none) :
    (Plan.ofQuery [.memory (.onePage name w rows)] q).result = .ok [⟨[], [⟨0, 0⟩]⟩] :=
  Plan.ofQuery_leaf rfl h rfl

theorem collect_onePage_of_selector (d : Disk) (name : String) (w : BucketWidth)
    (rows : List Fact) {q : Query} (h : q.selector = none) :
    (Scan.collect d [.memory (.onePage name w rows)] q).result =
      (q.replay rows).mapError fun fault => .error (.malformed fault.rising.message) := by
  simp only [result_collect_of_plan (result_ofQuery_onePage name w rows h), List.mapM_cons,
    List.mapM_nil, result_task_onePage]
  cases Query.replay q rows <;>
    simp [Except.mapError, Except.map, bind, Except.bind, pure, Except.pure]

theorem collect_onePage (d : Disk) (name : String) (w : BucketWidth) (rows : List Fact) :
    (Scan.collect d [.memory (.onePage name w rows)] {}).result =
      (Query.replay {} rows).mapError fun fault => .error (.malformed fault.rising.message) :=
  collect_onePage_of_selector d name w rows rfl

/-- A put and a later delete. -/
theorem collect_unambiguous_onePage :
    let segment := MemorySegment.onePage "history" .two [Fact.retraction, Fact.assertion]
    MemorySegment.ofParts segment.name segment.trie segment.pages = .ok segment ∧
      segment.trie.root.height ≤ segment.trie.width.maxDepth ∧
      (∀ pg ∈ segment.pages, Fact.IsGrouped pg.rows) ∧
      ∃ out, (Scan.collect .empty [.memory segment] {}).result = .ok out ∧
        OutputRow.AreUnambiguous out := by
  intro segment
  have haccepted : MemorySegment.ofParts segment.name segment.trie segment.pages = .ok segment :=
    rfl
  have hgrouped : ∀ pg ∈ segment.pages, Fact.IsGrouped pg.rows := by
    simpa [segment, MemorySegment.onePage] using Fact.isOrdered_retraction_assertion.isGrouped
  refine ⟨haccepted, Nat.zero_le _, hgrouped, ?_⟩
  rcases collect_unambiguous (List.forall_mem_singleton.2 haccepted)
    (List.forall_mem_singleton.2 (Nat.zero_le _)) (List.forall_mem_singleton.2 hgrouped) .empty {}
    with ⟨message, hmessage⟩ | hout
  · cases hmessage.symm.trans (collect_onePage .empty "history" .two _)
  · exact hout

/-- A page in which an entity comes back after another one, with a newer version, is accepted. A
scan does not fail and shows both versions at one point. -/
theorem collect_scattered :
    let put (entity : Nat) (systemFrom : Instant) : Fact :=
      ⟨.ofNat entity, .start, .never, systemFrom, .put .empty⟩
    let segment := MemorySegment.onePage "scattered" .two [put 1 5, put 2 5, put 1 9]
    MemorySegment.ofParts segment.name segment.trie segment.pages = .ok segment ∧
      ∃ out, (Scan.collect .empty [.memory segment] {}).result = .ok out ∧
        (out.filter fun r => r.entity = .ofNat 1 && r.covers 0 9).length = 2 := by
  refine ⟨rfl, _, collect_onePage .empty "scattered" .two _, ?_⟩
  decide

end Scan

end Bitemporal
