import Bitemporal.Ledger.Exposure
import Bitemporal.Query.Basic

/-!
# Rows of an answer

A put shows one row for each rectangle that is left of it inside the windows of a query, with the
rectangle clipped to the windows.

## Main definitions

* `OutputRow`: a row of an answer.
* `Query.rowsOf`: the rows that a version shows.
-/

namespace Bitemporal

/-- A row of an answer: content, and the rectangle of both times over which it holds. -/
structure OutputRow where
  /-- The entity. -/
  entity : EntityId
  /-- The first valid time. -/
  validFrom : Instant
  /-- The end in valid time. -/
  validTo : Instant
  /-- The first system time. -/
  systemFrom : Instant
  /-- The end in system time. -/
  systemTo : Instant
  /-- The content. -/
  doc : Document
deriving Inhabited

/-- The row as an object, in the order of its fields. -/
def OutputRow.toJson (r : OutputRow) : Json :=
  .object
    [ ("iid", .string r.entity.text)
    , ("valid_from", .int r.validFrom.toInt)
    , ("valid_to", .int r.validTo.toInt)
    , ("system_from", .int r.systemFrom.toInt)
    , ("system_to", .int r.systemTo.toInt)
    , ("doc", r.doc.toJson) ]

/-- Whether a rectangle holds some point at or after the system time of its version. -/
def Rectangle.isProper (r : Rectangle) (systemFrom : Instant) : Bool :=
  r.validFrom < r.validTo && systemFrom < r.systemTo

namespace Query

/-- Whether a rectangle of a version is inside the windows at least in part. -/
def sees (q : Query) (systemFrom : Instant) (r : Rectangle) : Bool :=
  r.isProper systemFrom &&
    q.bounds.intersects r.validFrom r.validTo systemFrom r.systemTo

/-- The row of a rectangle, clipped to the windows. -/
def rowOf (q : Query) (f : Fact) (doc : Document) (r : Rectangle) : OutputRow :=
  let valid := q.bounds.valid.clip r.validFrom r.validTo
  let system := q.bounds.system.clip f.systemFrom r.systemTo
  ⟨f.entity, valid.1, valid.2, system.1, system.2, q.project doc⟩

/-- The rows that a version shows where it is exposed. -/
def rowsOf (q : Query) (f : Fact) (x : Exposure) : List OutputRow :=
  match f.action with
  | .put doc =>
    if x.isEmpty || x.isStale q.bounds.valid.lower q.bounds.system.lower || ¬ q.accepts doc then []
    else (x.rectangles.filter (q.sees f.systemFrom)).map (q.rowOf f doc)
  | _ => []

end Query

end Bitemporal
