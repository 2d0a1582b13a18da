import Bitemporal.Segment.Basic

/-!
# Merge plans

The tries of several segments are walked together, and the space of ids is cut into tasks: disjoint
paths in ascending order, each with the pages whose leaves reach under it. A leaf above a path takes
part in every task below it.

## Main definitions

* `PageRef`, `MergeTask`: a page of a segment, and a path with its pages.
* `Plan.visits`: the walk, with the paths in the order in which they are met.
* `Plan.build`: the tasks of segments, under a condition on paths and a choice of pages.
-/

namespace Bitemporal

/-- A page of one of several segments, by their positions. -/
structure PageRef where
  /-- The position of the segment. -/
  segment : Nat
  /-- The number of the page in it. -/
  page : Nat
deriving DecidableEq, Repr, Inhabited

/-- A part of the space of ids with the pages that reach into it. -/
structure MergeTask where
  /-- The path that all its ids share. -/
  path : Path
  /-- Its pages in the order of their segments. -/
  pages : List PageRef
deriving DecidableEq, Repr, Inhabited

/-- Why a page is left out of a task. -/
inductive PruneReason where
  /-- It has no row that matters. -/
  | bounds
  /-- It has no document that matters, and caps none that does. -/
  | content
deriving DecidableEq, Repr

/-- The name of a reason. -/
def PruneReason.name : PruneReason → String
  | bounds => "bounds"
  | content => "content"

/-- A choice among the pages of a task: those that stay, or none to drop the task. -/
abbrev PageChoice := Option (List PageRef)

namespace Plan

/-- The part of a segment under a path. -/
structure Part where
  /-- The position of the segment. -/
  segment : Nat
  /-- What lies under the path. -/
  node : Trie Nat

/-- The part under one more bucket; a leaf reaches under all of them. -/
def Part.under? (bucket : Nat) (p : Part) : Option Part :=
  match p.node with
  | .absent => none
  | .leaf _ => some p
  | .branch _ =>
    let child := p.node.child bucket
    if child.isAbsent then none else some ⟨p.segment, child⟩

/-- The page of a part that is a leaf. -/
def Part.page? (p : Part) : Option PageRef :=
  match p.node with
  | .leaf page => some ⟨p.segment, page⟩
  | _ => none

/-- A path met on the walk, with the pages of its task if it ends there. -/
structure Visit where
  /-- The path. -/
  path : Path
  /-- The pages, if no part branches further. -/
  pages : Option (List PageRef)

/-- The walk from a path on, at most `height` levels down. Paths that are not accepted are met but
not entered. -/
def visitsFrom (w : BucketWidth) (accept : Path → Bool) : Nat → List Part → Path → List Visit
  | height, parts, path =>
    if ¬ accept path then [⟨path, none⟩]
    else if parts.all fun p => p.node.isLeaf then [⟨path, some (parts.filterMap Part.page?)⟩]
    else
      match height with
      | 0 => [⟨path, none⟩]
      | height + 1 =>
        ⟨path, none⟩ :: (List.range w.fanOut).flatMap fun bucket =>
          let below := parts.filterMap (Part.under? bucket)
          if below.isEmpty then [] else visitsFrom w accept height below (path ++ [bucket])

/-- The parts of segments that hold something, from the root. -/
def roots (segments : List Segment) : List Part :=
  (segments.zipIdx.map fun (s, i) => Part.mk i s.trie.root).filter fun p => ¬ p.node.isAbsent

/-- The walk of the tries of several segments. -/
def visits (w : BucketWidth) (segments : List Segment) (accept : Path → Bool) : List Visit :=
  let parts := roots segments
  if parts.isEmpty then []
  else visitsFrom w accept ((parts.map fun p => p.node.height).foldl max 0) parts []

/-- The level width that segments share; without segments any will do. -/
def commonWidth (segments : List Segment) : Except Error BucketWidth :=
  match segments with
  | [] => .ok .two
  | first :: rest =>
    match rest.find? fun s => s.width ≠ first.width with
    | none => .ok first.width
    | some s =>
      .error (.malformed (s!"segment '{s.name}' uses {s.width.bits} level bits, " ++
        s!"'{first.name}' uses {first.width.bits}"))

/-- The name of the segment at a position. -/
def segmentName (segments : List Segment) (i : Nat) : String :=
  (segments[i]?.map Segment.name).getD ""

/-- What is noted of a page that is left out. -/
def prunedEntry (segments : List Segment) (reason : PruneReason) (r : PageRef) : LogEntry :=
  Event.pagePruned.entry
    [("segment", segmentName segments r.segment), ("page", toString r.page),
      ("reason", reason.name)]

/-- Leaves a page out, which is noted and counted. -/
def leaveOut (segments : List Segment) (reason : PruneReason) (r : PageRef) : Engine Unit := do
  Engine.log [prunedEntry segments reason r]
  Engine.count { pagesPruned := 1 }

/-- The task of a path whose pages are chosen, unless none stays. -/
def taskOf? (path : Path) : PageChoice → Option MergeTask
  | none | some [] => none
  | some pages => some ⟨path, pages⟩

/-- The task of a visit. A condition without an answer ends the walk at its path. -/
def taskAt (accept : Path → Option Bool) (choose : List PageRef → Engine PageChoice)
    (v : Visit) : Engine (Option MergeTask) :=
  match accept v.path, v.pages with
  | none, _ => Engine.ofResult (.error .outOfBounds)
  | some _, none => return none
  | some _, some pages => return taskOf? v.path (← choose pages)

/-- A finished plan. -/
structure Built where
  /-- The tasks in ascending order of their paths. -/
  tasks : List MergeTask
  /-- The paths that were met, in order. -/
  asked : List Path

/-- Plans over segments of one level width. `accept` prunes whole subtrees and `choose` the pages of
each task; where either has no answer there is no plan. -/
def build (segments : List Segment) (accept : Path → Option Bool)
    (choose : List PageRef → Engine PageChoice) : Engine Built := do
  match commonWidth segments with
  | .error e => do
    Engine.log [Event.malformedInput.entry [("reason", e.message)]]
    Engine.ofExcept (.error e)
  | .ok w =>
    let visits := visits w segments fun path => (accept path).getD true
    let tasks := (← visits.mapM (taskAt accept choose)).filterMap id
    if ¬ visits.isEmpty then
      Engine.log [Event.mergePlanBuilt.entry
        [("segments", toString segments.length), ("tasks", toString tasks.length)]]
    return ⟨tasks, visits.map (·.path)⟩

/-- Keeps every page. -/
def everyPage (pages : List PageRef) : Engine PageChoice := return some pages

/-- Plans over every page. -/
def all (segments : List Segment) : Engine (List MergeTask) := do
  return (← build segments (fun _ => some true) everyPage).tasks

end Plan

end Bitemporal
