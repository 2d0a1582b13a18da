import Bitemporal.Merge.Row
import Bitemporal.Plan.Basic
import Bitemporal.Segment.Stored

/-!
# The rows of a merge task

## Main definitions

* `MergeTask.width`: the level width that a task is merged under.
* `MergeTask.rows`: the merged rows of loaded pages.
-/

namespace Bitemporal

/-- Loads a page of one of several segments. -/
def PageRef.load (d : Disk) (segments : List Segment) (r : PageRef) : Engine Page :=
  match segments[r.segment]? with
  | some s => s.loadPage d r.page
  | none => Engine.ofResult (.error .outOfBounds)

namespace MergeTask

/-- The level width of the segments that a task takes pages from. -/
def width (segments : List Segment) (t : MergeTask) : BucketWidth :=
  match t.pages.getLast?.bind fun r => segments[r.segment]? with
  | some s => s.width
  | none => .two

/-- The rows of a task in merge order, from its pages in their order. -/
def rows (segments : List Segment) (t : MergeTask) (pages : List Page) : Engine (List Fact) :=
  match mergeRows? (t.width segments) t.path pages with
  | some rows => return rows.map (·.fact)
  | none => Engine.ofResult (.error .outOfBounds)

end MergeTask

end Bitemporal
