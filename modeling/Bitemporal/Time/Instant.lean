/-!
# Instants

Both time axes count microseconds since the epoch in signed 64-bit integers. The least instant is
the unbounded start and the greatest is the unbounded end.
-/

namespace Bitemporal

/-- Microseconds since the epoch. -/
abbrev Instant := Int64

namespace Instant

/-- The start of time. -/
def start : Instant := Int64.minValue

/-- The end of time, which also stands for an end that is open. -/
def never : Instant := Int64.maxValue

/-- The next instant; the end of time has none and stays. -/
def next (t : Instant) : Instant := if t = never then never else t + 1

/-- The instant of a number of microseconds, if it is in range. -/
def ofInt? (i : Int) : Option Instant :=
  if start.toInt ≤ i ∧ i ≤ never.toInt then some (Int64.ofInt i) else none

end Instant

end Bitemporal
