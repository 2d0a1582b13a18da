import Bitemporal.Plan.Basic
import Bitemporal.Query.Basic

/-!
# Pruning by a query

A page is left out of a task only when none of its rows can change the answer. A page whose
documents cannot satisfy the predicates may still cap older versions of an entity that it shares
with another page of the task, so it stays whenever that cannot be ruled out.

## Main definitions

* `Plan.choosePages`: the choice among the pages of a task.
* `Plan.ofQuery`: the plan of a query.
-/

namespace Bitemporal.Plan

/-- What a query makes of a page by its summary alone. -/
inductive Verdict where
  | irrelevant
  | relevant
  | contentOnly
deriving DecidableEq, Repr

/-- The summary of a page of several segments. -/
def summary? (segments : List Segment) (r : PageRef) : Option PageSummary :=
  segments[r.segment]?.bind fun s => s.summary? r.page

/-- The verdict on a page; pages without a summary are relevant. -/
def judge? (segments : List Segment) (q : Query) (r : PageRef) : Option Verdict :=
  match summary? segments r with
  | none => some .relevant
  | some s =>
    (q.relevant? s).map fun (isRelevant : Bool) =>
      if ¬ isRelevant then .irrelevant
      else if q.contentMayHold s then .relevant
      else .contentOnly

/-- Whether a page may share an entity with one of the relevant pages. -/
def mayShare (segments : List Segment) (relevant : List PageRef) (r : PageRef) : Bool :=
  match relevant.mapM (summary? segments), summary? segments r with
  | some others, some s => others.any fun o => o.entities.intersects s.entities
  | _, _ => true

/-- The pages with a verdict. -/
def judged (v : Verdict) (verdicts : List (PageRef × Verdict)) : List PageRef :=
  (verdicts.filter fun x => x.2 = v).map (·.1)

/-- The pages that stay by their verdicts, and those that are left out for their content. -/
def choiceOf (segments : List Segment) (verdicts : List (PageRef × Verdict)) :
    PageChoice × List PageRef :=
  let relevant := judged .relevant verdicts
  let rest := judged .contentOnly verdicts
  if relevant.isEmpty then (none, rest)
  else if rest.isEmpty then (some relevant, [])
  else
    let (shared, dropped) := rest.partition (mayShare segments relevant)
    (some ((relevant ++ shared).mergeSort fun a b => a.segment ≤ b.segment), dropped)

/-- The verdict on a page; one that is irrelevant is left out at once. -/
def judge (segments : List Segment) (q : Query) (r : PageRef) : Engine (PageRef × Verdict) := do
  match judge? segments q r with
  | none => Engine.ofResult (.error .outOfBounds)
  | some v =>
    if v = .irrelevant then leaveOut segments .bounds r
    return (r, v)

/-- The choice among the pages of a task. -/
def choosePages (segments : List Segment) (q : Query) (pages : List PageRef) :
    Engine PageChoice := do
  let (kept, dropped) := choiceOf segments (← pages.mapM (judge segments q))
  dropped.forM (leaveOut segments .content)
  return kept

/-- Whether a query asks for something under a path. -/
def asksUnder (segments : List Segment) (q : Query) (path : Path) : Option Bool :=
  match q.selector with
  | none => some true
  | some s => s.under? ((segments.head?.map Segment.width).getD .two) path

/-- The tasks of a query. -/
def ofQuery (segments : List Segment) (q : Query) : Engine (List MergeTask) := do
  let plan ← build segments (asksUnder segments q) (choosePages segments q)
  Engine.count { tasksPlanned := UInt64.ofNat plan.tasks.length }
  return plan.tasks

end Bitemporal.Plan
