import Bitemporal.Ledger.Basic

/-!
# What is left of a version

The exposure of a version tiles its span of valid time by rectangles, each of which ends in system
time where a newer version superseded that part of the span.

## Main definitions

* `Exposure`: the tiling, by its valid times and the system-time ends between them.
* `Exposure.rectangles`: the rectangles.
* `Ledger.resolve`: the exposure of a version against the newer ones.
* `Exposure.recency`: the least point from which on, in both times, nothing is left.
-/

namespace Bitemporal

/-- A part of valid time and the system time at which it ends. -/
structure Rectangle where
  validFrom : Instant
  validTo : Instant
  systemTo : Instant
deriving DecidableEq, Repr

/-- A tiling of a span of valid time. There is one more valid time than there are ends in system
time, or none of either. -/
structure Exposure where
  /-- The ends of the tiles, ascending. -/
  validTimes : List Instant
  /-- For each tile, the system time at which it ends. -/
  systemTos : List Instant
deriving DecidableEq, Repr, Inhabited

namespace Exposure

/-- No tiles. -/
def empty : Exposure := ⟨[], []⟩

/-- The number of tiles. -/
def size (x : Exposure) : Nat := x.systemTos.length

/-- Whether there are no tiles. -/
def isEmpty (x : Exposure) : Bool := x.systemTos.isEmpty

/-- Tiles between successive valid times. -/
def tiles : List Instant → List Instant → List Rectangle
  | a :: b :: times, s :: ends => ⟨a, b, s⟩ :: tiles (b :: times) ends
  | _, _ => []

/-- The tiles in ascending order. -/
def rectangles (x : Exposure) : List Rectangle := tiles x.validTimes x.systemTos

/-- The greatest of `best` and the lesser ends of tiles given from the top down. A tile that ends
no later than the best so far ends the search: no tile below it can do better. -/
def recencyFrom (best : Instant) : List Rectangle → Instant
  | [] => best
  | r :: rest =>
    if r.validTo ≤ best then best else recencyFrom (max best (min r.validTo r.systemTo)) rest

/-- The greatest instant that lies before the end of some tile in both times; the version is
invisible wherever both coordinates are at or beyond it. -/
def recency (x : Exposure) : Instant := recencyFrom .start x.rectangles.reverse

/-- Whether nothing is left for a query with these lower ends. -/
def isStale (x : Exposure) (validLower systemLower : Instant) : Bool :=
  x.recency ≤ validLower && x.recency ≤ systemLower

end Exposure

namespace Ledger

/-- The ranges from the bottom up, each with its upper end. -/
def ascending (l : Ledger) : List (Instant × Instant) := (l.validTimes.zip l.ceilings).reverse

/-- The ranges up to a valid time, the last of them cut there. -/
def upTo (v : Instant) : List (Instant × Instant) → List (Instant × Instant)
  | [] => []
  | (upper, ceiling) :: rest =>
    if upper ≥ v then [(v, ceiling)] else (upper, ceiling) :: upTo v rest

/-- The exposure of a version that is older than all recorded ones. An empty span leaves nothing. -/
def resolve (l : Ledger) (systemFrom validFrom validTo : Instant) : Except Rising Exposure :=
  match l.checkOrder systemFrom with
  | .error e => .error e
  | .ok () =>
    if validFrom ≥ validTo then .ok .empty
    else
      let ranges := upTo validTo (l.ascending.dropWhile fun r => r.1 ≤ validFrom)
      .ok ⟨validFrom :: ranges.map (·.1), ranges.map (·.2)⟩

end Ledger

end Bitemporal
