import Mathlib
import Bitemporal.Proofs.Plan.Accounts
import Bitemporal.Proofs.Scan.Rising
import Bitemporal.Proofs.Scan.Stored
import Bitemporal.Scan.Cursor

/-!
# The pages that a scan accounts for

A task that is scanned to its end counts its pages, itself and its rows. So a scan that ends without
a failure has loaded every page of its plan, as often as a task has it, and with those that the plan
left out it accounts for the plan over every page.

## Main definitions

* `Scan.tally`: the counts of scanned tasks.

## Main statements

* `Scan.counts_taskOn`, `Scan.counts_rowsOfTasks`: what one task counts, and what all tasks count.
* `Cursor.drain_eq_advance`: the rows of a cursor are its next batch, and the rows after it.
* `Cursor.drain_accounts`: planning and scanning account for every page.
-/

namespace Bitemporal

open scoped Counting

variable {d : Disk} {segments : List Segment} {q : Query}

namespace Scan

/-- The counts of tasks that were scanned. -/
def tally (pages tasks rows : Nat) : Metrics where
  pagesLoaded := UInt64.ofNat pages
  tasksScanned := UInt64.ofNat tasks
  rowsEmitted := UInt64.ofNat rows

theorem tally_add (p t r p' t' r' : Nat) :
    tally (p + p') (t + t') (r + r') = tally p t r + tally p' t' r' := by
  show _ = Metrics.add _ _
  simp [tally, Metrics.add]

theorem nsmul_tally (n : Nat) : n • tally 1 0 0 = tally n 0 0 := by
  induction n with
  | zero => rfl
  | succ n ih => rw [succ_nsmul, ih, ← tally_add]

theorem loadPage_charges (s : Segment) (i : Nat) : (s.loadPage d i).Charges 0 := by
  rw [Segment.loadPage]
  cases s.page d i with
  | ok page => exact .pure page
  | error e =>
    dsimp only
    split <;> exact .of_error rfl

theorem load_charges (r : PageRef) : (load d segments r).Charges (tally 1 0 0) := by
  have hload : (r.load d segments).Charges 0 := by
    rw [PageRef.load]
    cases segments[r.segment]? with
    | none => exact .of_error rfl
    | some s => exact loadPage_charges s r.page
  exact hload.bind fun page _ => Engine.Charges.bind (.count _) fun _ _ => .pure page

theorem merged_charges (t : MergeTask) :
    (merged d segments t).Charges (tally t.pages.length 0 0) := by
  rw [← nsmul_tally, ← add_zero (_ • _)]
  refine (Engine.Charges.mapM fun r _ => load_charges r).bind fun pages _ => ?_
  rw [MergeTask.rows]
  cases mergeRows? (t.width segments) t.path pages with
  | none => exact .of_error rfl
  | some rows => exact .pure _

theorem report_counts {t : MergeTask} {shown : Except ReplayFault (List OutputRow)}
    {rows : List OutputRow} (h : (report t shown).result = .ok rows) :
    (report t shown).counts = tally 0 1 rows.length := by
  cases shown with
  | error fault => cases h
  | ok shown =>
    obtain rfl := Except.ok.inj h
    have hreport : (report t (.ok shown)).Charges (tally 0 1 shown.length + (0 + 0)) :=
      .bind (.count _) fun _ _ => .bind (.log _) fun _ _ => .pure shown
    rw [hreport _ h, add_zero, add_zero]

/-- A task that is scanned to its end counts its pages, itself and its rows. -/
theorem counts_taskOn {w : Workspace} {t : MergeTask} {rows : List OutputRow}
    (h : (taskOn d segments q w t).value.1 = .ok rows) :
    (taskOn d segments q w t).counts = tally t.pages.length 1 rows.length := by
  rw [taskOn, Logged.value_bind] at h
  rw [taskOn, Logged.counts_bind]
  cases hfacts : (merged d segments t).run.value with
  | error f => simp [hfacts] at h
  | ok facts =>
    rw [hfacts] at h
    have hmerged : (merged d segments t).run.counts = tally t.pages.length 0 0 :=
      merged_charges t facts hfacts
    have hreport := report_counts h
    rw [hmerged, ← Nat.zero_add 1, ← Nat.zero_add rows.length, ← Nat.add_zero t.pages.length,
      tally_add, ← hreport, ← add_zero (Engine.counts _)]
    rfl

/-- Tasks that are all scanned to their end count their pages, themselves and their rows. -/
theorem counts_rowsOfTasks {w : Workspace} {tasks : List MergeTask} {rows : List OutputRow}
    (h : (rowsOfTasks d segments q w tasks).value = (rows, none)) :
    (rowsOfTasks d segments q w tasks).counts =
      tally (Plan.pageCount tasks) tasks.length rows.length := by
  induction tasks generalizing w rows with
  | nil =>
    obtain rfl : rows = [] := (Prod.mk.inj h).1.symm
    rfl
  | cons t rest ih =>
    rw [rowsOfTasks, Logged.value_bind] at h
    rw [rowsOfTasks, Logged.counts_bind]
    cases hvalue : (taskOn d segments q w t).value with
    | mk shown left =>
      rw [hvalue] at h
      cases shown with
      | error f => cases h
      | ok first =>
        cases hmore : (rowsOfTasks d segments q left rest).value with
        | mk more failure =>
          rw [Logged.value_bind, hmore] at h
          obtain ⟨rfl, rfl⟩ := Prod.mk.inj h
          rw [Logged.counts_bind, counts_taskOn (congrArg Prod.fst hvalue), ih hmore, hmore,
            Logged.counts_pure, add_zero, ← tally_add, List.length_append, List.length_cons,
            Nat.add_comm 1]
          rfl

/-- The rows of tasks are those of their first batch, and those of the tasks after it. -/
theorem rowsOfTasks_eq_nextBatch (d : Disk) (segments : List Segment) (q : Query) (w : Workspace)
    (tasks : List MergeTask) : rowsOfTasks d segments q w tasks = do
      match ← nextBatch d segments q w tasks with
      | (.error f, _) => return ([], some f)
      | (.ok none, _) => return ([], none)
      | (.ok (some batch), left, rest) =>
        let (rows, failure) ← rowsOfTasks d segments q left rest
        return (batch.rows ++ rows, failure) := by
  induction tasks generalizing w with
  | nil => rfl
  | cons t rest ih =>
    rw [rowsOfTasks, nextBatch, bind_assoc]
    refine congrArg _ (funext fun told => ?_)
    obtain ⟨f | rows, left⟩ := told
    · rfl
    · dsimp only
      split_ifs with hrows
      · rw [List.isEmpty_iff.1 hrows, ← ih left]
        exact bind_pure _
      · rw [pure_bind]

end Scan

namespace Cursor

/-- The rows of a cursor are those of its next batch, and those of the cursor after it. -/
theorem drain_eq_advance (d : Disk) (c : Cursor) : c.drain d = do
    match ← c.advance d with
    | (.error f, _) => return ([], some f)
    | (.ok none, _) => return ([], none)
    | (.ok (some batch), c) =>
      let (rows, failure) ← c.drain d
      return (batch.rows ++ rows, failure) := by
  rw [drain, advance]
  split_ifs with hdone
  · rfl
  · rw [Scan.rowsOfTasks_eq_nextBatch, bind_assoc]
    refine congrArg _ (funext fun told => ?_)
    obtain ⟨f | - | batch, left, rest⟩ := told
    · rfl
    · rfl
    · dsimp only
      rw [pure_bind]
      rfl

/-- Planning and scanning account for every page. A scan that ends without a failure scans every
task that was planned, gives as many rows as it counts, and loads or leaves out every page of the
plan over every page under the same condition, each as often as a task has it. It counts nothing
else. -/
theorem drain_accounts {c : Cursor} {rows : List OutputRow}
    (hplan : (ofQuery segments q).result = .ok c) (hdrain : (c.drain d).value = (rows, none)) :
    let counts := (ofQuery segments q).counts + (c.drain d).counts
    counts.tasksPlanned = counts.tasksScanned ∧ counts.rowsEmitted = UInt64.ofNat rows.length ∧
    ∃ whole, (Plan.build segments (Plan.asksUnder segments q) Plan.everyPage).result = .ok whole ∧
      counts.pagesLoaded + counts.pagesPruned = UInt64.ofNat (Plan.pageCount whole.tasks) ∧
      ∃ left, Plan.pageCount c.tasks + left = Plan.pageCount whole.tasks ∧ counts =
        { pagesLoaded := UInt64.ofNat (Plan.pageCount c.tasks)
          pagesPruned := UInt64.ofNat left
          tasksPlanned := UInt64.ofNat c.tasks.length
          tasksScanned := UInt64.ofNat c.tasks.length
          rowsEmitted := UInt64.ofNat rows.length } := by
  intro counts
  obtain ⟨tasks, htasks, rfl⟩ := ofQuery_eq_ok_iff.1 hplan
  obtain ⟨whole, hwhole, left, hleft, hplanned⟩ := Plan.ofQuery_accounts htasks
  have hscanned : (drain d { segments, query := q, tasks }).counts =
      Scan.tally (Plan.pageCount tasks) tasks.length rows.length := Scan.counts_rowsOfTasks hdrain
  have hcursor : (ofQuery segments q).counts = (Plan.ofQuery segments q).counts := by
    rw [ofQuery, Engine.counts_bind_of_ok htasks]
    exact add_zero _
  have hcounts : counts =
      { pagesLoaded := UInt64.ofNat (Plan.pageCount tasks)
        pagesPruned := UInt64.ofNat left
        tasksPlanned := UInt64.ofNat tasks.length
        tasksScanned := UInt64.ofNat tasks.length
        rowsEmitted := UInt64.ofNat rows.length } := by
    show (ofQuery segments q).counts + (drain d { segments, query := q, tasks }).counts = _
    rw [hcursor, hplanned, hscanned]
    show Metrics.add (Metrics.add _ _) _ = _
    simp [Metrics.add, Metrics.pruned, Scan.tally]
  rw [hcounts]
  refine ⟨rfl, rfl, whole, hwhole, ?_, left, (Nat.add_comm _ _).trans hleft, rfl⟩
  rw [← hleft, Nat.add_comm, UInt64.ofNat_add]

/-- As of 6, a page in files with a delete of 8 is left out, and one in memory is loaded. -/
theorem drain_accounts_later :
    let segments := [.stored (.single Fact.retraction), .memory (.single .two Fact.assertion)]
    let planned := ofQuery segments { bounds := .asOf 6 }
    ∃ c rows, planned.result = .ok c ∧ (c.drain .empty).value = (rows, none) ∧
      planned.counts + (c.drain .empty).counts =
        { pagesLoaded := 1
          pagesPruned := 1
          tasksPlanned := 1
          tasksScanned := 1
          rowsEmitted := 1 } := by
  let segments : List Segment :=
    [.stored (.single Fact.retraction), .memory (.single .two Fact.assertion)]
  let q : Query := { bounds := .asOf 6 }
  let t : MergeTask := ⟨[], [⟨1, 0⟩]⟩
  have hplan : (Plan.ofQuery segments q).result = .ok [t] := by
    simp only [segments, StoredSegment.single, StoredSegment.ofRows, StoredSegment.pagesOf_single]
    rfl
  have hplanned := ofQuery_eq_ok_iff.2 ⟨[t], hplan, rfl⟩
  have hmerged : (Scan.merged .empty segments t).result = .ok [Fact.assertion] := by
    let page : Page := ⟨[Fact.assertion]⟩
    have hpages : (t.pages.mapM (Scan.load .empty segments)).result = .ok [page] := rfl
    obtain ⟨rows, hrows, hfacts⟩ := Option.map_eq_some_iff.1 (mergeRows?_root (w := .two) page)
    rw [Scan.merged, Engine.result_bind, hpages]
    show (t.rows segments [page]).result = .ok page.rows
    rw [MergeTask.rows, show mergeRows? (t.width segments) t.path [page] = some rows from hrows,
      ← hfacts]
    rfl
  have hshown : Query.replay { bounds := .asOf 6 } [Fact.assertion] =
      .ok [⟨.ofNat 1, .start, .never, 6, 7, .empty⟩] := rfl
  have hdrain : (drain .empty { segments, query := q, tasks := [t] }).value =
      ([⟨.ofNat 1, .start, .never, 6, 7, .empty⟩], none) := by
    show (Scan.rowsOfTasks .empty segments q {} [t]).value = _
    rw [Scan.value_rowsOfTasks, List.map_singleton, Scan.result_task_of_merged hmerged, hshown]
    rfl
  have hwhole : (Plan.build segments (Plan.asksUnder segments q) Plan.everyPage).result =
      .ok ⟨[⟨[], [⟨0, 0⟩, ⟨1, 0⟩]⟩], [[]]⟩ := by
    have hwidth : Plan.commonWidth segments = .ok .two := rfl
    rw [Plan.build, hwidth]
    rfl
  refine ⟨_, _, hplanned, hdrain, ?_⟩
  obtain ⟨-, -, whole, hbuilt, -, left, hleft, hcounts⟩ := drain_accounts hplanned hdrain
  obtain rfl := Except.ok.inj (hwhole.symm.trans hbuilt)
  obtain rfl : left = 1 := Nat.add_left_cancel hleft
  exact hcounts

end Cursor

end Bitemporal
