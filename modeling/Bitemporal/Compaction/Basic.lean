import Bitemporal.Merge.Task

/-!
# Compaction

Several segments become one that answers every query as they did. Rows are merged, not resolved:
every version stays, except that nothing older than an erase of its entity does. The erase itself
stays, so it still hides older rows of segments that are merged later.

## Main definitions

* `Compaction.dropErased`: cuts the history of each entity after its newest erase.
* `Compaction.merge`: the facts of several segments as one run.
* `Compaction.toMemory`, `Compaction.toDisk`: the compacted segment.
-/

namespace Bitemporal.Compaction

/-- The facts that stay. `hidden` is the entity of the last fact if an erase of it was met. -/
def dropErasedFrom (hidden : Option EntityId) : List Fact → List Fact
  | [] => []
  | f :: rest =>
    if hidden = some f.entity then dropErasedFrom hidden rest
    else f :: dropErasedFrom (if f.isErase then some f.entity else none) rest

/-- Facts in merge order without those that an erase before them hides. -/
def dropErased (facts : List Fact) : List Fact := dropErasedFrom none facts

/-- The facts of a task that stay. -/
def task (d : Disk) (segments : List Segment) (t : MergeTask) : Engine (List Fact) := do
  let pages ← t.pages.mapM fun r => r.load d segments
  return dropErased (← t.rows segments pages)

/-- The facts of segments, newest segment first, as one ordered run. -/
def merge (d : Disk) (segments : List Segment) : Engine (List Fact) := do
  let tasks ← Plan.all segments
  return (← tasks.mapM (task d segments)).flatten

/-- The names of segments in a list. -/
def inputs (segments : List Segment) : String := ",".intercalate (segments.map Segment.name)

/-- Merges segments and lays them out anew: the pages that were made, and the trie over them or
what prevented it. -/
def write (w : Writer) (d : Disk) (segments : List Segment) :
    Logged (List Page × Except Failure HashTrie) := do
  let names := ("inputs", inputs segments)
  let () ← { value := (), entries := [Event.compactionBegin.entry [names]] }
  match ← (merge d segments).run with
  | .error f => return ([], .error f)
  | .ok rows =>
    let out ← w.write rows
    match out.trie with
    | .error e => return (out.pages, .error (.error e))
    | .ok trie =>
      let () ← {
        value := ()
        entries := [Event.compactionComplete.entry
          [names, ("rows", toString rows.length), ("leaves", toString trie.leafCount)]]
        counts := { compactions := 1 } }
      return (out.pages, .ok trie)

/-- Compacts segments into one in memory. -/
def toMemory (settings : Settings) (name : String) (segments : List Segment) (d : Disk) :
    Logged (Except Failure MemorySegment) := do
  match Writer.ofSettings settings with
  | .error e => return .error (.error e)
  | .ok w =>
    let (pages, trie) ← write w d segments
    match trie with
    | .error f => return .error f
    | .ok trie => return (MemorySegment.ofParts name trie pages).mapError .error

/-- Compacts segments into a new stored one. -/
def toDisk (settings : Settings) (name : String) (segments : List Segment) (d : Disk) :
    Logged (Except Failure StoredSegment × Disk) := do
  match Writer.ofSettings settings with
  | .error e => return (.error (.error e), d)
  | .ok w => StoredSegment.writeWith settings name d fun d => write w d segments

end Bitemporal.Compaction
