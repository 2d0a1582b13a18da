import Bitemporal.Page.Range

/-!
# The merged rows of a task

Every page of a task is ordered, so the rows of the task come from repeatedly taking the least row
at the front of any page. Rows of one entity and one system time come from the earlier page first.

## Main definitions

* `MergedRow`: a row with the page and the position that it comes from.
* `mergeRows?`: the rows of some pages under a path.
-/

namespace Bitemporal

/-- A row and where it comes from. -/
structure MergedRow where
  /-- The position of the page among those of the task. -/
  page : Nat
  /-- The position of the row in the page. -/
  index : Nat
  /-- The row. -/
  fact : Fact
deriving Inhabited

namespace MergedRow

/-- Whether the row of an earlier page comes before the row of a later one. -/
def before (a b : MergedRow) : Bool := a.fact.before b.fact

/-- The rows of a page under a path. -/
def ofPage? (w : BucketWidth) (path : Path) (page : Nat) (p : Page) : Option (List MergedRow) :=
  (p.rangeUnder? w path).map fun r => (p.rowsIn r).map fun (i, f) => ⟨page, i, f⟩

/-- Merges rows of several pages, given by page. -/
def mergeAll (pages : List (List MergedRow)) : List MergedRow :=
  pages.foldr (fun rows merged => rows.merge merged before) []

end MergedRow

/-- The rows of pages under a path in merge order. -/
def mergeRows? (w : BucketWidth) (path : Path) (pages : List Page) : Option (List MergedRow) :=
  (pages.zipIdx.mapM fun (p, i) => MergedRow.ofPage? w path i p).map MergedRow.mergeAll

end Bitemporal
