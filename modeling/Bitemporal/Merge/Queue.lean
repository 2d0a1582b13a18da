import Bitemporal.Merge.Row

/-!
# The queue of a task

The rows of a task can be asked for one at a time. Each page has a pointer to the next of its rows
under the path. A queue has one entry for each page that has such rows left, with what places its
next row among the others. The greatest entry is taken out; entries are compared the other way round
than what places their rows, so the first row is asked for. If its page has more rows, an entry for
the next of them goes back in.

## Main definitions

* `RowPointer`: the rows of a page that are left.
* `QueueEntry`: what places the next row of a page.
* `TaskRows`: the pointers and the queue.
* `TaskRows.next?`: the next row.
-/

namespace Bitemporal

/-- The rows of a page that are left. -/
structure RowPointer where
  /-- The page. -/
  page : Page
  /-- The position of the next row. -/
  index : Nat
  /-- The position after the last row. -/
  past : Nat

/-- What places the next row of a page. -/
structure QueueEntry where
  /-- The entity of the row. -/
  entity : EntityId
  /-- Its system time. -/
  systemFrom : Instant
  /-- The position of the page among those of the task. -/
  page : Nat
deriving DecidableEq, Repr, Inhabited

namespace RowPointer

/-- The rows of a page under a path. -/
def ofPage? (w : BucketWidth) (path : Path) (p : Page) : Option RowPointer :=
  (p.rangeUnder? w path).map fun r => ⟨p, r.first, r.past⟩

/-- Whether any rows are left. -/
def isValid (x : RowPointer) : Bool := x.index < x.past

/-- The rows that are left after the next one. -/
def advance (x : RowPointer) : RowPointer := { x with index := x.index + 1 }

/-- The entry of the next row. -/
def front? (x : RowPointer) (page : Nat) : Option QueueEntry :=
  x.page.rows[x.index]?.map fun f => ⟨f.entity, f.systemFrom, page⟩

/-- The entries of the pages that have rows left, the first page being at a position. -/
def fronts? (page : Nat) : List RowPointer → Option (List QueueEntry)
  | [] => some []
  | x :: rest =>
    if x.isValid then do return (← x.front? page) :: (← fronts? (page + 1) rest)
    else fronts? (page + 1) rest

end RowPointer

namespace QueueEntry

/-- Compares what places two rows: ascending entities, newest first within one, and of the same
system time the row of the earlier page first. -/
def compareKeys (a b : QueueEntry) : Ordering :=
  (compareOfLessAndEq a.entity b.entity).then <|
    (compareOfLessAndEq b.systemFrom a.systemFrom).then (compareOfLessAndEq a.page b.page)

/-- Entries are compared the other way round. -/
instance : Ord QueueEntry := ⟨fun a b => compareKeys b a⟩

/-- Takes the greatest entry out. -/
def pop? : List QueueEntry → Option (QueueEntry × List QueueEntry)
  | [] => none
  | e :: rest =>
    match pop? rest with
    | none => some (e, [])
    | some (greatest, others) =>
      if (compare e greatest).isLT then some (greatest, e :: others) else some (e, rest)

end QueueEntry

/-- The rows of a task that are left. -/
structure TaskRows where
  /-- The rows of each page. -/
  pointers : List RowPointer
  /-- The entries of the pages that have rows left. -/
  queue : List QueueEntry

namespace TaskRows

/-- The rows of pages under a path. -/
def ofPages? (w : BucketWidth) (path : Path) (pages : List Page) : Option TaskRows := do
  let pointers ← pages.mapM (RowPointer.ofPage? w path)
  return ⟨pointers, ← RowPointer.fronts? 0 pointers⟩

/-- Whether no rows are left. -/
def isExhausted (s : TaskRows) : Bool := s.queue.isEmpty

/-- The next row, by its page and its position in the page, none at the end, and the rows after it.
An entry may name a page or a row that is not there, and then there is no answer. -/
def next? (s : TaskRows) : Option (Option (Nat × Nat) × TaskRows) :=
  match QueueEntry.pop? s.queue with
  | none => some (none, s)
  | some (head, others) => do
    let x ← s.pointers[head.page]?
    let left := x.advance
    let queue ← if left.isValid then (left.front? head.page).map (· :: others) else some others
    return (some (head.page, x.index), ⟨s.pointers.set head.page left, queue⟩)

/-- What so many requests for the next row give, and the rows after them. -/
def requests? : Nat → TaskRows → Option (List (Option (Nat × Nat)) × TaskRows)
  | 0, s => some ([], s)
  | n + 1, s => do
    let (row, s) ← s.next?
    let (rows, s) ← requests? n s
    return (row :: rows, s)

end TaskRows

end Bitemporal
