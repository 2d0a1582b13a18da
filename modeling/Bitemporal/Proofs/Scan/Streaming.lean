import Mathlib
import Bitemporal.Proofs.Scan.Showings
import Bitemporal.Proofs.Scan.Stored

/-!
# The order of a stream

The tasks of a plan have paths that part, in ascending order, and all ids under a path stand before
all ids under a later one. Within a task the versions come in merge order, and the rows of a version
lie apart in valid time. So the batches of a cursor, put one after the other, are one ordered
stream: it does not show where a batch ends, how deep a task lies, which pages were left out, or
that clipping has made the system times of different versions equal.

## Main definitions

* `OutputRow.MayPrecede`: the order of the rows of a stream.
* `Batch.among`: the batches among what a cursor gives.

## Main statements

* `Scan.exists_planned`: the tasks over orderly segments.
* `Scan.pairwise_told`: the versions of several tasks, in order.
* `Scan.exists_told_of_given`: the tasks that batches are from.
* `Cursor.advances_eq_take`: any number of advances.
* `Cursor.advances_ordered`: the stream of a cursor.
-/

namespace Bitemporal

open scoped Linear
open Ledger Plan

variable {d : Disk} {w : BucketWidth} {q : Query} {segments : List Segment} {t : MergeTask}
  {tasks : List MergeTask} {shown : List Showing}

/-! ## The plan -/

theorem Plan.chosen_sublist {refs : List PageRef} (hrefs : refs.Pairwise (·.segment < ·.segment)) :
    (chosen segments q refs).Sublist refs := by
  by_cases hne : relevantOf segments q refs = []
  · rw [chosen_eq_nil hne]
    exact List.nil_sublist refs
  · rw [chosen_eq hrefs hne]
    exact List.filter_sublist

namespace Scan

/-- There is a plan over orderly segments, and the paths of its tasks part in ascending order. -/
theorem exists_planned (h : ∀ s ∈ segments, s.IsOrderly d w) (q : Query) :
    ∃ tasks, (Plan.ofQuery segments q).result = .ok tasks ∧
      (∀ t ∈ tasks, t.IsPlanned w segments) ∧
      tasks.Pairwise fun a b => Path.PartsBefore a.path b.path := by
  have hwidth : ∀ s ∈ segments, s.width = w := fun s hs => (h s hs).width
  have hheight : ∀ s ∈ segments, s.trie.root.height ≤ w.maxDepth := fun s hs => (h s hs).height
  have hjudge (r : PageRef) : (judge? segments q r).isSome := by
    refine isSome_judge? fun summary hsummary => ?_
    obtain ⟨s, hs, hsummary⟩ := Option.bind_eq_some_iff.1 hsummary
    exact (h s (List.mem_of_getElem? hs)).words r.page summary hsummary
  by_cases hne : segments = []
  · exact ⟨[], by rw [hne]; rfl, by simp, .nil⟩
  let kept (p : Path) := chosen segments q (leavesAt segments p)
  have hchoose : ∀ p, EndsAt w segments p → ∃ c,
      (choosePages segments q (leavesAt segments p)).result = .ok c ∧ c.getD [] = kept p :=
    fun p _ => choosePages_result fun r _ => hjudge r
  have hplan : (Plan.ofQuery segments q).Yields False _ :=
    .bind (build_yields hwidth hheight (fun _ => exists_asksUnder_eq hwidth hne q) hchoose)
    (.bind (.of_result (Engine.result_count _)) (.pure _))
  refine ⟨_, hplan.result, fun t ht => ?_, pairwise_tasks _⟩
  obtain ⟨hends, htask, hnonempty⟩ := of_mem_tasks hheight ht
  have hsublist : (kept t.path).Sublist (leavesAt segments t.path) :=
    chosen_sublist (pairwise_leavesAt segments t.path)
  rw [htask]
  exact ⟨hends.length_le, hnonempty, (pairwise_leavesAt segments t.path).sublist hsublist,
    fun r hr => lt_of_mem_leavesAt (hsublist.mem hr)⟩

end Scan

/-! ## Versions of several tasks -/

/-- All ids under a path stand before all ids under a later one. -/
theorem Path.PartsBefore.entity_lt {a b : Path} {e e' : EntityId} (h : PartsBefore a b)
    (ha : e.isUnder w a) (hb : e'.isUnder w b) : e < e' := by
  obtain ⟨p, x, y, r, r', rfl, rfl, hxy⟩ := h
  exact EntityId.lt_of_isUnder_append hxy ha hb

/-- The order of the rows of a stream: ascending ids, and within one no later system time after an
earlier one. -/
def OutputRow.MayPrecede (r s : OutputRow) : Prop :=
  r.entity ≤ s.entity ∧ (r.entity = s.entity → s.systemFrom ≤ r.systemFrom)

namespace Scan

/-- The versions of tasks whose paths part are in order, and no version comes twice. -/
theorem pairwise_told {told : List (MergeTask × List Showing)}
    (htold : ∀ x ∈ told, IsTold d segments q w x.1.path x.2)
    (hparts : told.Pairwise fun x y => Path.PartsBefore x.1.path y.1.path) :
    (told.flatMap (·.2)).Pairwise fun v v' => v.fact.before v'.fact ∧ v.origin ≠ v'.origin := by
  rw [List.pairwise_flatMap]
  constructor
  · intro x hx
    exact (htold x hx).ordered.and (List.pairwise_map.1 (htold x hx).nodup)
  · refine hparts.imp_of_mem fun {x y} hx hy hxy v hv v' hv' => ?_
    have hlt := hxy.entity_lt ((htold x hx).under v hv) ((htold y hy).under v' hv')
    refine ⟨Fact.before_iff.2 (.inl hlt), fun horigin => ?_⟩
    have hfact := ((htold x hx).stands v hv).fact_eq ((htold y hy).stands v' hv') horigin
    exact hlt.ne (congrArg _ hfact)

/-- The rows of the versions of tasks whose paths part are in order. -/
theorem pairwise_rows {told : List (MergeTask × List Showing)}
    (htold : ∀ x ∈ told, IsTold d segments q w x.1.path x.2)
    (hparts : told.Pairwise fun x y => Path.PartsBefore x.1.path y.1.path) :
    ((told.flatMap (·.2)).flatMap (·.rows)).Pairwise OutputRow.MayPrecede := by
  have hrow {v : Showing} (hv : v ∈ told.flatMap (·.2)) {r : OutputRow} (hr : r ∈ v.rows) :
      r.entity = v.fact.entity ∧ r.systemFrom = max v.fact.systemFrom q.bounds.system.lower := by
    obtain ⟨x, hx, hv⟩ := List.mem_flatMap.1 hv
    obtain ⟨steps, -, hnil | heq⟩ := (htold x hx).rows v hv
    · simp [hnil] at hr
    · exact Query.of_mem_rowsAgainst (heq ▸ hr)
  rw [List.pairwise_flatMap]
  constructor
  · intro v hv
    refine List.pairwise_of_forall_mem_list fun r hr r' hr' => ?_
    obtain ⟨hentity, hsystem⟩ := hrow hv hr
    obtain ⟨hentity', hsystem'⟩ := hrow hv hr'
    exact ⟨(hentity.trans hentity'.symm).le, fun _ => (hsystem'.trans hsystem.symm).le⟩
  · refine (pairwise_told htold hparts).imp_of_mem fun {v v'} hv hv' h r hr r' hr' => ?_
    obtain ⟨hentity, hsystem⟩ := hrow hv hr
    obtain ⟨hentity', hsystem'⟩ := hrow hv' hr'
    rw [OutputRow.MayPrecede, hentity, hentity', hsystem, hsystem']
    rcases Fact.before_iff.1 h.1 with hlt | ⟨heq, hle⟩
    · exact ⟨hlt.le, fun heq => absurd heq hlt.ne⟩
    · exact ⟨heq.le, fun _ => max_le_max_right _ hle⟩

end Scan

/-! ## Batches -/

/-- The batches among what a cursor gives. -/
def Batch.among (given : List (Except Failure (Option Batch))) : List Batch :=
  given.filterMap fun x => x.toOption.join

theorem Batch.among_replicate (n : Nat) : among (List.replicate n (Except.ok none)) = [] :=
  List.filterMap_replicate_of_none rfl

/-- The batch of a task, from what its versions show. -/
def Batch.ofTold (x : MergeTask × List Showing) : Batch := ⟨x.1.path, x.2.flatMap (·.rows)⟩

namespace Scan

/-- The batches are those of some tasks that do not fail and have rows, in their order. -/
structure AreTold (d : Disk) (segments : List Segment) (q : Query) (tasks : List MergeTask)
    (batches : List Batch) (told : List (MergeTask × List Showing)) : Prop where
  sublist : (told.map (·.1)).Sublist tasks
  batches_eq : batches = told.map Batch.ofTold
  shown : ∀ x ∈ told, showings d segments q x.1 = .ok x.2 ∧ x.2.flatMap (·.rows) ≠ []

theorem areTold_nil : AreTold d segments q tasks [] [] := ⟨List.nil_sublist tasks, rfl, by simp⟩

namespace AreTold

variable {batches : List Batch} {told : List (MergeTask × List Showing)}

theorem cons (h : AreTold d segments q tasks batches told)
    (hshown : showings d segments q t = .ok shown) (hne : shown.flatMap (·.rows) ≠ []) :
    AreTold d segments q (t :: tasks) (Batch.ofTold (t, shown) :: batches) ((t, shown) :: told) :=
  ⟨h.sublist.cons_cons t, by rw [h.batches_eq, List.map_cons],
    List.forall_mem_cons.2 ⟨⟨hshown, hne⟩, h.shown⟩⟩

theorem mem (h : AreTold d segments q tasks batches told) : ∀ x ∈ told, x.1 ∈ tasks :=
  fun _ hx => h.sublist.mem (List.mem_map_of_mem hx)

theorem isTold (h : AreTold d segments q tasks batches told)
    (hsegments : ∀ s ∈ segments, s.IsOrderly d w) (hplanned : ∀ t ∈ tasks, t.IsPlanned w segments) :
    ∀ x ∈ told, IsTold d segments q w x.1.path x.2 :=
  fun x hx => .of_showings hsegments (hplanned x.1 (h.mem x hx)) (h.shown x hx).1

theorem rows_ne_nil (h : AreTold d segments q tasks batches told) : ∀ b ∈ batches, b.rows ≠ [] := by
  rw [h.batches_eq, List.forall_mem_map]
  exact fun x hx => (h.shown x hx).2

theorem flatMap_rows (h : AreTold d segments q tasks batches told) :
    batches.flatMap (·.rows) = (told.flatMap (·.2)).flatMap (·.rows) := by
  rw [h.batches_eq, List.flatMap_map, List.flatMap_assoc]
  rfl

theorem pairwise_parts (h : AreTold d segments q tasks batches told)
    (hparts : tasks.Pairwise fun a b => Path.PartsBefore a.path b.path) :
    told.Pairwise fun x y => Path.PartsBefore x.1.path y.1.path :=
  (List.pairwise_map (f := Prod.fst)).1 (hparts.sublist h.sublist)

theorem pairwise_path (h : AreTold d segments q tasks batches told)
    (hparts : tasks.Pairwise fun a b => Path.PartsBefore a.path b.path) :
    batches.Pairwise fun a b => a.path < b.path ∧ ¬ a.path <+: b.path := by
  rw [h.batches_eq, List.pairwise_map]
  exact (h.pairwise_parts hparts).imp fun hxy => ⟨hxy.lt, hxy.not_prefix.1⟩

/-- Each batch has what the versions of its task show. -/
theorem forall₂ (h : AreTold d segments q tasks batches told) :
    List.Forall₂ (fun b part => b.rows = part.flatMap (·.rows) ∧
      ∃ t ∈ tasks, t.path = b.path ∧ showings d segments q t = .ok part)
        batches (told.map (·.2)) := by
  rw [h.batches_eq, List.forall₂_map_left_iff, List.forall₂_map_right_iff, List.forall₂_same]
  exact fun x hx => ⟨rfl, x.1, h.mem x hx, rfl, (h.shown x hx).1⟩

end AreTold

/-- The batches among what tasks give are those of the tasks that have rows, up to the first that
fails. -/
theorem exists_told_of_given (d : Disk) (segments : List Segment) (q : Query)
    (tasks : List MergeTask) (n k : Nat) :
    ∃ told, AreTold d segments q tasks (Batch.among
      ((given d segments q tasks ++ List.replicate k (Except.ok none)).take n)) told := by
  induction tasks generalizing n with
  | nil =>
    rw [given, List.nil_append, List.take_replicate, Batch.among_replicate]
    exact ⟨[], areTold_nil⟩
  | cons t rest ih =>
    obtain - | n := n
    · exact ⟨[], areTold_nil⟩
    have htask := result_task_eq_showings d segments q t
    cases hshown : showings d segments q t with
    | error f =>
      have hgiven : given d segments q (t :: rest) = [.error f] := by
        rw [given, htask, hshown]
        rfl
      have hnone : Batch.among (.error f :: List.replicate (min n k) (Except.ok none)) = [] :=
        Batch.among_replicate (min n k)
      rw [hgiven, List.singleton_append, List.take_succ_cons, List.take_replicate, hnone]
      exact ⟨[], areTold_nil⟩
    | ok shown =>
      rw [hshown] at htask
      by_cases hrows : shown.flatMap (·.rows) = []
      · have hgiven : given d segments q (t :: rest) = given d segments q rest := by
          simp [given, htask, Except.map, hrows]
        obtain ⟨told, htold⟩ := ih (n + 1)
        rw [hgiven]
        exact ⟨told, htold.sublist.cons t, htold.batches_eq, htold.shown⟩
      · have hgiven : given d segments q (t :: rest) =
            .ok (some (Batch.ofTold (t, shown))) :: given d segments q rest := by
          simp [given, htask, Except.map, hrows, Batch.ofTold]
        obtain ⟨told, htold⟩ := ih n
        rw [hgiven]
        exact ⟨(t, shown) :: told, htold.cons hshown hrows⟩

/-- What tasks give fails only with a page that cannot be loaded. -/
theorem exists_page_of_error (hsegments : ∀ s ∈ segments, s.IsOrderly d w)
    (hplanned : ∀ t ∈ tasks, t.IsPlanned w segments) {f : Failure}
    (h : .error f ∈ given d segments q tasks) :
    ∃ t ∈ tasks, ∃ r ∈ t.pages, (r.load d segments).result = .error f := by
  induction tasks with
  | nil => cases h
  | cons t rest ih =>
    rw [List.forall_mem_cons] at hplanned
    rw [given, result_task_eq_showings] at h
    cases hshown : showings d segments q t with
    | error g =>
      rw [hshown] at h
      obtain rfl := Except.error.inj (List.mem_singleton.1 h)
      exact ⟨t, .head rest, exists_of_showings_error hsegments hplanned.1 hshown⟩
    | ok shown =>
      rw [hshown] at h
      have hrest : .error f ∈ given d segments q rest := by
        simp only [Except.map] at h
        split at h
        · exact h
        · exact (List.mem_cons.1 h).resolve_left (by simp)
      obtain ⟨t', ht', hfails⟩ := ih hplanned.2 hrest
      exact ⟨t', .tail t ht', hfails⟩

end Scan

namespace Cursor

variable {c : Cursor}

theorem take_advances (n k : Nat) : (c.advances d (n + k)).take n = c.advances d n := by
  induction n generalizing c with
  | zero => rfl
  | succ n ih => rw [Nat.succ_add, advances, advances, List.take_succ_cons, ih]

/-- Any number of advances gives what the tasks give, as far as it gets, and nothing after that. -/
theorem advances_eq_take (h : c.isDone = false) (n : Nat) : c.advances d n =
    (Scan.given d c.segments c.query c.tasks ++ List.replicate n (Except.ok none)).take n := by
  rw [← advances_eq h rfl n, Nat.add_comm, take_advances]

/-- The stream of a cursor over segments that writes have left in memory or in files. Advances give
batches with rows, under paths that ascend, none of them a prefix of a later one. All rows, batch
after batch, are in order. They are what versions show one after the other: each version stands at a
place of its own, so its rows are all together, and they lie apart in valid time. There is no other
failure than that of a page that cannot be loaded. -/
theorem advances_ordered (h : ∀ s ∈ segments, ∃ rows, s.IsWriteOf d w rows) (q : Query) :
    ∃ c, (Cursor.ofQuery segments q).result = .ok c ∧ ∀ n,
      let batches := Batch.among (c.advances d n)
      (∀ b ∈ batches, b.rows ≠ []) ∧
      batches.Pairwise (fun a b => a.path < b.path ∧ ¬ a.path <+: b.path) ∧
      (batches.flatMap (·.rows)).Pairwise OutputRow.MayPrecede ∧
      (∃ parts : List (List Showing),
        List.Forall₂ (fun b part => b.rows = part.flatMap (·.rows) ∧
          ∃ t ∈ c.tasks, t.path = b.path ∧ Scan.showings d segments q t = .ok part)
            batches parts ∧
        (parts.flatten.map (·.origin)).Nodup ∧
        ∀ v ∈ parts.flatten, v.Stands d segments ∧
          v.rows.Pairwise fun r r' => r.validTo ≤ r'.validFrom) ∧
      ∀ f, .error f ∈ c.advances d n →
        ∃ t ∈ c.tasks, ∃ r ∈ t.pages, (r.load d segments).result = .error f := by
  have horderly : ∀ s ∈ segments, s.IsOrderly d w := fun s hs =>
    (h s hs).elim fun _ => Segment.IsWriteOf.isOrderly
  obtain ⟨tasks, htasks, hplanned, hparts⟩ := Scan.exists_planned horderly q
  refine ⟨.ofTasks segments q tasks, ofQuery_eq_ok_iff.2 ⟨tasks, htasks, rfl⟩, fun n => ?_⟩
  have hadvances := advances_eq_take (d := d) (c := .ofTasks segments q tasks) rfl n
  obtain ⟨told, htold⟩ := Scan.exists_told_of_given d segments q tasks n n
  have hisTold := htold.isTold horderly hplanned
  have hparted := htold.pairwise_parts hparts
  have hflatten : (told.map (·.2)).flatten = told.flatMap (·.2) := List.flatMap_def.symm
  rw [hadvances]
  dsimp only [ofTasks]
  refine ⟨htold.rows_ne_nil, htold.pairwise_path hparts, ?_,
    ⟨told.map (·.2), htold.forall₂, ?_, ?_⟩, ?_⟩
  · exact htold.flatMap_rows ▸ Scan.pairwise_rows hisTold hparted
  · rw [hflatten]
    exact List.pairwise_map.2 ((Scan.pairwise_told hisTold hparted).imp And.right)
  · rw [hflatten]
    intro v hv
    obtain ⟨x, hx, hv⟩ := List.mem_flatMap.1 hv
    exact ⟨(hisTold x hx).stands v hv, (hisTold x hx).pairwise_validTimes v hv⟩
  · intro f hf
    rcases List.mem_append.1 (List.mem_of_mem_take hf) with hgiven | hend
    · exact Scan.exists_page_of_error horderly hplanned hgiven
    · cases List.eq_of_mem_replicate hend

/-- A put in files, cut in two by a later delete in memory. -/
theorem advances_ordered_single :
    ∃ c, (Cursor.ofQuery [.stored (.single Fact.assertion),
        .memory (.single .two Fact.retraction)] {}).result = .ok c ∧
      ((Batch.among (c.advances (StoredSegment.diskOfSingle Fact.assertion) 2)).flatMap
        (·.rows)).Pairwise OutputRow.MayPrecede := by
  have hwritten : ∀ s ∈ [Segment.stored (.single Fact.assertion),
      .memory (.single .two Fact.retraction)], ∃ rows,
        s.IsWriteOf (StoredSegment.diskOfSingle Fact.assertion) .two rows := by
    simp only [List.forall_mem_cons]
    exact ⟨⟨_, (StoredSegment.isWrittenFrom_single Fact.assertion).isWriteOf⟩,
      ⟨_, (MemorySegment.isWrittenFrom_single .two Fact.retraction).isWriteOf⟩, by simp⟩
  obtain ⟨c, hc, hadvances⟩ := advances_ordered hwritten {}
  exact ⟨c, hc, (hadvances 2).2.2.1⟩

end Cursor

end Bitemporal
