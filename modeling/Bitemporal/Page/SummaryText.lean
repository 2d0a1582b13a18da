import Bitemporal.Json.Record
import Bitemporal.Page.Summary

/-!
# Written page summaries

Summaries are kept in JSON, one record for each page.

## Main definitions

* `PageSummary.toJson`, `PageSummary.ofSource?`: writing and reading.
-/

namespace Bitemporal

/-- An instant as a number. -/
def Instant.toJson (t : Instant) : Json := .int t.toInt

/-- An instant from a number. -/
def Instant.ofSource? (s : Json.Source) : Option Instant :=
  (s.integer? Instant.start.toInt Instant.never.toInt).bind Instant.ofInt?

namespace NumberRange

/-- The range as a record. -/
def toJson (r : NumberRange) : Json :=
  .object [("min", .number (.float r.least)), ("max", .number (.float r.greatest))]

/-- The range of a record. -/
def ofSource? (s : Json.Source) : Option NumberRange := do
  match ← s.record? ["min", "max"] false with
  | [some least, some greatest] => return ⟨← least.double?, ← greatest.double?⟩
  | _ => none

end NumberRange

namespace Bloom

/-- The filter as a record. -/
def toJson (b : Bloom) : Json :=
  .object [("words", .array (b.words.map fun w => .nat w.toNat))]

/-- The filter of a record. -/
def ofSource? (s : Json.Source) : Option Bloom := do
  match ← s.record? ["words"] false with
  | [some words] => return ⟨(← (← words.items?).mapM (·.natural? 64)).map UInt64.ofNat⟩
  | _ => none

end Bloom

namespace PageSummary

/-- The summary as a record. -/
def toJson (s : PageSummary) : Json :=
  .object
    [ ("offset", .nat s.offset)
    , ("len", .nat s.length)
    , ("row_count", .nat s.rowCount)
    , ("min_system_from", s.minSystemFrom.toJson)
    , ("max_system_from", s.maxSystemFrom.toJson)
    , ("min_valid_from", s.minValidFrom.toJson)
    , ("max_valid_to", s.maxValidTo.toJson)
    , ("iid_bloom", s.entities.toJson)
    , ("has_erase", .bool s.hasErase)
    , ("column_stats", .object (s.ranges.map fun (name, r) => (name, r.toJson))) ]

/-- The names of the fields, in their order. -/
def fieldNames : List String :=
  ["offset", "len", "row_count", "min_system_from", "max_system_from", "min_valid_from",
    "max_valid_to", "iid_bloom", "has_erase", "column_stats"]

/-- Ranges by column name; of two of one name the later counts. -/
def rangesOfSource? : Json.Source → Option (List (String × NumberRange))
  | .object fields =>
    (fields.mapM fun (f : Json.Quoted × Json.Source) => do
      return (← f.1.text?, ← NumberRange.ofSource? f.2)).map Json.sortFields
  | _ => none

/-- The summary of a record. Position, length, erase mark and ranges may be left out. -/
def ofSource? (s : Json.Source) : Option PageSummary := do
  match ← s.record? fieldNames false with
  | [offset, length, some rowCount, some minSystemFrom, some maxSystemFrom, some minValidFrom,
      some maxValidTo, some entities, hasErase, ranges] =>
    return {
      offset := ← Json.Source.withDefault? 0 (·.natural? 64) offset
      length := ← Json.Source.withDefault? 0 (·.natural? 64) length
      rowCount := ← rowCount.natural? 64
      minSystemFrom := ← Instant.ofSource? minSystemFrom
      maxSystemFrom := ← Instant.ofSource? maxSystemFrom
      minValidFrom := ← Instant.ofSource? minValidFrom
      maxValidTo := ← Instant.ofSource? maxValidTo
      entities := ← Bloom.ofSource? entities
      hasErase := ← Json.Source.withDefault? false (·.boolean?) hasErase
      ranges := ← Json.Source.withDefault? [] rangesOfSource? ranges }
  | _ => none

end PageSummary

end Bitemporal
