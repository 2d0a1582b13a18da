import Bitemporal.Page.Basic
import Bitemporal.Page.Bloom
import Bitemporal.Time.Window

/-!
# Page summaries

What is known of a page without reading it: the extent of its rows in both times, a filter of its
entities, whether it holds an erase, and the range of the numbers in each column.

## Main definitions

* `PageSummary`: the summary.
* `Page.summary`: the summary of a page.
* `PageSummary.overlaps`: whether some row can take part in a query.
-/

namespace Bitemporal

/-- The least and the greatest number of a column. -/
structure NumberRange where
  least : Binary64
  greatest : Binary64
deriving DecidableEq, Repr

/-- The range with one more number. -/
def NumberRange.add (r : Option NumberRange) (x : Binary64) : NumberRange :=
  match r with
  | none => ⟨x, x⟩
  | some r => ⟨r.least.min x, r.greatest.max x⟩

/-- What is known of a page without reading it. -/
structure PageSummary where
  /-- Where the page's record begins in the file of pages. -/
  offset : Nat
  /-- The length of the record. -/
  length : Nat
  /-- The number of rows. -/
  rowCount : Nat
  /-- The least system time of a row, or the end of time. -/
  minSystemFrom : Instant
  /-- The greatest system time of a row, or the start of time. -/
  maxSystemFrom : Instant
  /-- The least start of a row in valid time, or the end of time. -/
  minValidFrom : Instant
  /-- The greatest end of a row in valid time, or the start of time. -/
  maxValidTo : Instant
  /-- The entities of the rows. -/
  entities : Bloom
  /-- Whether some row is an erase. -/
  hasErase : Bool
  /-- The columns that hold numbers, by name. -/
  ranges : List (String × NumberRange)
deriving DecidableEq, Repr

namespace PageSummary

/-- The summary of no rows. -/
def ofBits (bloomBits : Nat) : PageSummary where
  offset := 0
  length := 0
  rowCount := 0
  minSystemFrom := .never
  maxSystemFrom := .start
  minValidFrom := .never
  maxValidTo := .start
  entities := .ofBits bloomBits
  hasErase := false
  ranges := []

/-- The summary with one more row; columns are left as they are. -/
def addRow (s : PageSummary) (f : Fact) : PageSummary :=
  { s with
    rowCount := s.rowCount + 1
    minSystemFrom := min s.minSystemFrom f.systemFrom
    maxSystemFrom := max s.maxSystemFrom f.systemFrom
    minValidFrom := min s.minValidFrom f.validFrom
    maxValidTo := max s.maxValidTo f.validTo
    entities := s.entities.insert f.entity
    hasErase := s.hasErase || f.isErase }

/-- Whether some row can take part in a query: it is known to the query and touches its valid
time. A row before the query's system time still supersedes older rows, and an erase always
counts. -/
def overlaps (s : PageSummary) (b : Bounds) : Bool :=
  s.hasErase ||
    (b.knows s.minSystemFrom && b.valid.intersects s.minValidFrom s.maxValidTo)

/-- The range of the numbers in a column, if it holds any. -/
def range? (s : PageSummary) (column : String) : Option NumberRange := s.ranges.lookup column

end PageSummary

namespace Page

/-- The range of the numbers among the values of a column. -/
def numberRange? (values : List (Option Json)) : Option NumberRange :=
  (values.filterMap fun v => v.bind Json.toBinary64?).foldl
    (fun r x => some (NumberRange.add r x)) none

/-- The summary of a page that is not stored yet. -/
def summary (p : Page) (bloomBits : Nat) : PageSummary :=
  { p.rows.foldl PageSummary.addRow (.ofBits bloomBits) with
    ranges := p.columnNames.filterMap fun name =>
      (numberRange? (p.column name)).map (name, ·) }

end Page

end Bitemporal
