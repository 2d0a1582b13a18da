import Bitemporal.Merge.Task
import Bitemporal.Plan.Pruning
import Bitemporal.Scan.Replay

/-!
# Scans

A scan runs the tasks of a query one after the other. A cursor gives the rows of one task at a time
and passes over tasks without rows; the first failure ends it, and the rows given before it stand.
It runs all its tasks on one workspace.

## Main definitions

* `Scan.taskOn`, `Scan.task`: the rows of one task, on some workspace or by itself.
* `Cursor.advance`: the next batch of rows.
* `Cursor.drain`: all rows up to the end or a failure.
* `Scan.collect`: the whole answer to a query.
-/

namespace Bitemporal

/-- The rows of one task. -/
structure Batch where
  /-- The path of the task. -/
  path : Path
  /-- Its rows in merge order, at least one. -/
  rows : List OutputRow
deriving Inhabited

namespace Scan

/-- What is noted of a row that comes after an older one. -/
def faultEntry (fault : ReplayFault) : LogEntry :=
  Event.malformedInput.entry
    [("iid", fault.entity.text), ("reason", (Error.malformed fault.rising.message).message)]

/-- Loads a page for a scan, which is counted. -/
def load (d : Disk) (segments : List Segment) (r : PageRef) : Engine Page := do
  let page ← r.load d segments
  Engine.count { pagesLoaded := 1 }
  return page

/-- The merged rows of the pages of a task. -/
def merged (d : Disk) (segments : List Segment) (t : MergeTask) : Engine (List Fact) := do
  let pages ← t.pages.mapM (load d segments)
  t.rows segments pages

/-- What a task showed, with what is noted of it. -/
def report (t : MergeTask) : Except ReplayFault (List OutputRow) → Engine (List OutputRow)
  | .error fault => do
    Engine.log [faultEntry fault]
    Engine.ofExcept (.error (.malformed fault.rising.message))
  | .ok rows => do
    Engine.count { tasksScanned := 1, rowsEmitted := UInt64.ofNat rows.length }
    Engine.log [Event.scanTaskComplete.entry
      [("path", t.path.text), ("rows", toString rows.length)]]
    return rows

/-- The rows of one task on a workspace, and the workspace after it. -/
def taskOn (d : Disk) (segments : List Segment) (q : Query) (w : Workspace) (t : MergeTask) :
    Logged (Except Failure (List OutputRow) × Workspace) := do
  match ← (merged d segments t).run with
  | .error f => return (.error f, w)
  | .ok facts =>
    let (shown, w) := Replay.play q (.start w) facts
    return (← (report t shown).run, w)

/-- The rows of one task by itself. -/
def task (d : Disk) (segments : List Segment) (q : Query) (t : MergeTask) :
    Engine (List OutputRow) :=
  ExceptT.mk do return (← taskOn d segments q {} t).1

/-- The first batch of some tasks, the workspace after it, and the tasks after it. -/
def nextBatch (d : Disk) (segments : List Segment) (q : Query) (w : Workspace) :
    List MergeTask → Logged (Except Failure (Option Batch) × Workspace × List MergeTask)
  | [] => return (.ok none, w, [])
  | t :: rest => do
    match ← taskOn d segments q w t with
    | (.error f, w) => return (.error f, w, rest)
    | (.ok rows, w) =>
      if rows.isEmpty then nextBatch d segments q w rest
      else return (.ok (some ⟨t.path, rows⟩), w, rest)

/-- The rows of some tasks up to the first failure. -/
def rowsOfTasks (d : Disk) (segments : List Segment) (q : Query) (w : Workspace) :
    List MergeTask → Logged (List OutputRow × Option Failure)
  | [] => return ([], none)
  | t :: rest => do
    match ← taskOn d segments q w t with
    | (.error f, _) => return ([], some f)
    | (.ok rows, w) =>
      let (more, failure) ← rowsOfTasks d segments q w rest
      return (rows ++ more, failure)

end Scan

/-- A scan under way. -/
structure Cursor where
  /-- The segments, newest first. -/
  segments : List Segment
  /-- What is asked. -/
  query : Query
  /-- The tasks that are not scanned yet. -/
  tasks : List MergeTask
  /-- What the tasks scanned so far left behind. -/
  workspace : Workspace := {}
  /-- Whether the end or a failure was met. -/
  isDone : Bool := false

namespace Cursor

/-- The cursor over some tasks, such as one share of a plan. -/
def ofTasks (segments : List Segment) (q : Query) (tasks : List MergeTask) : Cursor :=
  { segments, query := q, tasks }

/-- The cursor over all tasks of a query. -/
def ofQuery (segments : List Segment) (q : Query) : Engine Cursor := do
  return .ofTasks segments q (← Plan.ofQuery segments q)

/-- The next batch, none at the end, and the cursor after it. -/
def advance (d : Disk) (c : Cursor) : Logged (Except Failure (Option Batch) × Cursor) := do
  if c.isDone then return (.ok none, c)
  else
    let (result, workspace, tasks) ← Scan.nextBatch d c.segments c.query c.workspace c.tasks
    let isDone := match result with
      | .ok (some _) => false
      | _ => true
    return (result, { c with workspace, tasks, isDone })

/-- The rows up to the end or the first failure. -/
def drain (d : Disk) (c : Cursor) : Logged (List OutputRow × Option Failure) :=
  if c.isDone then return ([], none)
  else Scan.rowsOfTasks d c.segments c.query c.workspace c.tasks

/-- All rows, unless there is a failure. -/
def collect (d : Disk) (c : Cursor) : Engine (List OutputRow) :=
  ExceptT.mk do
    match ← c.drain d with
    | (rows, none) => return .ok rows
    | (_, some f) => return .error f

end Cursor

/-- The answer to a query. -/
def Scan.collect (d : Disk) (segments : List Segment) (q : Query) : Engine (List OutputRow) := do
  (← Cursor.ofQuery segments q).collect d

end Bitemporal
