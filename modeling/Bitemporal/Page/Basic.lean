import Bitemporal.Fact.Basic

/-!
# Pages

A page holds the facts of one leaf. Beside the facts themselves it can be seen by columns: each
content column has a value in some of the rows.

## Main definitions

* `Page`: the rows.
* `Page.columnNames`, `Page.column`: the view by columns.
* `Page.copyRow?`: the content of a row, restricted to some columns.
-/

namespace Bitemporal

/-- The facts of a leaf. -/
structure Page where
  /-- The facts in page order. -/
  rows : List Fact
deriving Inhabited

namespace Page

/-- The number of rows. -/
def size (p : Page) : Nat := p.rows.length

/-- Whether there are no rows. -/
def isEmpty (p : Page) : Bool := p.rows.isEmpty

/-- The names of the columns that have a value in some row, sorted. -/
def columnNames (p : Page) : List String :=
  (p.rows.foldl (fun names f => f.doc.names.foldl (fun ns n => Json.setField n () ns) names)
    []).map (·.1)

/-- The values of a column, row by row. -/
def column (p : Page) (name : String) : List (Option Json) := p.rows.map fun f => f.doc.get? name

/-- The content of a row, or of some of its columns. A row past the last has no value to read, but
nothing is read of columns that the page does not have. -/
def copyRow? (p : Page) (index : Nat) (projection : Option (List String)) : Option Document :=
  match p.rows[index]? with
  | some f =>
    some <| match projection with
      | none => f.doc
      | some names => f.doc.restrict names
  | none =>
    let read := match projection with
      | none => p.columnNames
      | some names => names.filter p.columnNames.contains
    if read.isEmpty then some .empty else none

end Page

end Bitemporal
