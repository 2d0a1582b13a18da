import Bitemporal.Fact.Basic
import Bitemporal.Journal.Logged
import Bitemporal.Page.Basic
import Bitemporal.Settings
import Bitemporal.Trie.Basic

/-!
# Laying out a segment

Ordered facts are cut by buckets, level after level, until each part fits a leaf or belongs to one
entity. The leaves in ascending order of their paths are the pages of the segment.

## Main definitions

* `Layout.ofRows`: the trie of parts.
* `Writer`: the settings of a write.
* `Writer.write`: the pages of a segment and its trie, with what is refused.
-/

namespace Bitemporal

namespace Layout

/-- Whether the first and the last fact belong to one entity. Between ordered facts, all do. -/
def isSolo (rows : List Fact) : Bool :=
  rows.head?.map (·.entity) = rows.getLast?.map (·.entity)

/-- The facts whose bucket at a level is `bucket`. -/
def inBucket (w : BucketWidth) (level bucket : Nat) (rows : List Fact) : List Fact :=
  rows.filter fun f => f.entity.bucket? w level = some bucket

/-- The trie of facts with `room` levels left: a leaf where they fit one, where they belong to one
entity or where no level is left, and otherwise a branch over their buckets. -/
def ofRowsAt (w : BucketWidth) (limit : Nat) : Nat → List Fact → Trie (List Fact)
  | room, rows =>
    if rows.isEmpty then .absent
    else if rows.length ≤ limit || isSolo rows then .leaf rows
    else
      match room with
      | 0 => .leaf rows
      | room + 1 =>
        let level := w.maxDepth - (room + 1)
        .branch ((List.range w.fanOut).map fun b =>
          ofRowsAt w limit room (inBucket w level b rows))

/-- The trie of ordered facts. -/
def ofRows (w : BucketWidth) (limit : Nat) (rows : List Fact) : Trie (List Fact) :=
  ofRowsAt w limit w.maxDepth rows

end Layout

/-- The settings of a write, checked. -/
structure Writer where
  /-- The bits of a level. -/
  width : BucketWidth
  /-- The greatest number of rows of a leaf. -/
  limit : Nat
  /-- What to do with an entity that has more. -/
  oversized : OversizedPolicy
deriving DecidableEq, Repr

namespace Writer

/-- The writer of some settings. -/
def ofSettings (s : Settings) : Except Error Writer := do
  return ⟨← s.check, s.leafRowLimit, s.oversized⟩

/-- What a write gave: the pages in order, also those before a refusal, and the trie over them. -/
structure Output where
  /-- The pages. -/
  pages : List Page
  /-- The trie, or why there is none. -/
  trie : Except Error HashTrie

/-- What is noted of a leaf over the row limit. -/
def oversizedFields (w : Writer) (path : Path) (rows : List Fact) : List (String × String) :=
  [("iid", (rows.head?.map (·.entity.text)).getD ""), ("rows", toString rows.length),
    ("limit", toString w.limit), ("depth", toString path.length)]

/-- The refusal of a leaf over the row limit. -/
def refusal (w : Writer) (rows : List Fact) : Error :=
  let entity := (rows.head?.map (·.entity.text)).getD ""
  .exhausted s!"entity {entity} has {rows.length} rows, over the leaf limit of {w.limit}"

/-- Turns leaves into pages, one after the other, up to the first that is refused. -/
def fill (w : Writer) : List (Path × List Fact) → Logged (List Page × Option Error)
  | [] => return ([], none)
  | (path, rows) :: rest =>
    if rows.length > w.limit ∧ w.oversized = .reject then
      return ([], some (w.refusal rows))
    else do
      let oversized := rows.length > w.limit
      let () ← {
        value := ()
        entries :=
          if oversized then [Event.oversizedLeaf.entry (w.oversizedFields path rows)] else []
        counts := { oversizedLeaves := if oversized then 1 else 0, leavesWritten := 1 } }
      let (pages, refused) ← w.fill rest
      return (⟨rows⟩ :: pages, refused)

/-- Writes facts that must be in order. -/
def write (w : Writer) (rows : List Fact) : Logged Output := do
  match Fact.firstDisorder? rows with
  | some d =>
    let e := Error.malformed d.message
    let () ← { value := (), entries := [Event.malformedInput.entry [("reason", e.message)]] }
    return ⟨[], .error e⟩
  | none =>
    let count := toString rows.length
    let () ← { value := (), entries := [Event.segmentWriteBegin.entry [("rows", count)]] }
    let layout := Layout.ofRows w.width w.limit rows
    let (pages, refused) ← w.fill layout.leaves
    match refused with
    | some e => return ⟨pages, .error e⟩
    | none =>
      let trie : HashTrie := ⟨(layout.number 0).1, w.width⟩
      let () ← {
        value := ()
        entries := [Event.segmentWriteComplete.entry
          [("rows", count), ("leaves", toString trie.leafCount), ("depth", toString trie.depth)]] }
      return ⟨pages, .ok trie⟩

end Writer

end Bitemporal
