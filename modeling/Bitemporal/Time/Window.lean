import Bitemporal.Time.Instant

/-!
# Windows of time

A window is half-open. A query has one window on each axis; a version recorded at or after the end
of its system-time window is not known to it.

## Main definitions

* `Window`: a range `[lower, upper)` of one axis.
* `Bounds`: a window on each axis.
* `Bounds.knows`: whether a version recorded at an instant takes part.
* `Bounds.intersects`: whether a rectangle overlaps both windows.
-/

namespace Bitemporal

/-- The instants `lower ≤ t < upper`. -/
structure Window where
  /-- The first instant. -/
  lower : Instant
  /-- The first instant past the end. -/
  upper : Instant
deriving DecidableEq, Repr

namespace Window

/-- The whole axis. -/
def unbounded : Window := ⟨.start, .never⟩

/-- A single instant. -/
def instant (t : Instant) : Window := ⟨t, t.next⟩

/-- Whether an instant lies in the window. -/
def holds (w : Window) (t : Instant) : Prop := w.lower ≤ t ∧ t < w.upper

instance (w : Window) (t : Instant) : Decidable (w.holds t) :=
  inferInstanceAs (Decidable (_ ∧ _))

/-- Whether `[lo, hi)` overlaps the window. -/
def intersects (w : Window) (lo hi : Instant) : Bool := lo < w.upper && hi > w.lower

/-- The part of `[lo, hi)` inside the window, when they overlap. -/
def clip (w : Window) (lo hi : Instant) : Instant × Instant := (max lo w.lower, min hi w.upper)

/-- Whether the window holds no instant. -/
def isEmpty (w : Window) : Bool := w.lower ≥ w.upper

end Window

instance : Inhabited Window := ⟨Window.unbounded⟩

/-- A window on each time axis. -/
structure Bounds where
  /-- The valid times asked for. -/
  valid : Window := Window.unbounded
  /-- The system times asked for. -/
  system : Window := Window.unbounded
deriving DecidableEq, Repr, Inhabited

namespace Bounds

/-- Everything ever recorded, over all of valid time. -/
def unbounded : Bounds := {}

/-- All of valid time as it was recorded at one system time. -/
def asOf (t : Instant) : Bounds := { system := Window.instant t }

/-- Whether a version recorded at `systemFrom` was known before the end of the system window. -/
def knows (b : Bounds) (systemFrom : Instant) : Bool := systemFrom < b.system.upper

/-- Whether the rectangle `[validFrom, validTo) × [systemFrom, systemTo)` overlaps both windows. -/
def intersects (b : Bounds) (validFrom validTo systemFrom systemTo : Instant) : Bool :=
  b.valid.intersects validFrom validTo && b.system.intersects systemFrom systemTo

end Bounds

end Bitemporal
