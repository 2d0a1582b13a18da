import Bitemporal.Time.Instant

/-!
# The ledger of one entity

While the versions of an entity are read newest first, the ledger knows for every valid time from
which system time on older versions are superseded. It is a step function: a list of steps from the
top of valid time down, each of which reaches from its lower end to the step above it.

## Main definitions

* `Ledger`: the steps, and the system time of the last version recorded.
* `Ledger.record`: supersedes a span of valid time from a system time on.
* `Ledger.IsSteps`: the lower ends strictly descend to the start of time.
-/

namespace Bitemporal

/-- A range of valid time that ends where the step above it begins. -/
structure Step where
  /-- The first valid time of the range. -/
  lower : Instant
  /-- The system time from which on the range is superseded. -/
  ceiling : Instant
deriving DecidableEq, Repr, Inhabited

/-- What is superseded of one entity. -/
structure Ledger where
  /-- The steps, from the top of valid time down. -/
  steps : List Step
  /-- The system time of the last version recorded, or the end of time. -/
  last : Instant
deriving DecidableEq, Repr, Inhabited

/-- A version that comes after an older one. -/
structure Rising where
  /-- The system time of the version. -/
  systemFrom : Instant
  /-- The system time before it. -/
  last : Instant
deriving DecidableEq, Repr

namespace Rising

/-- The fault in words. -/
def message (r : Rising) : String :=
  s!"system_from {r.systemFrom} arrived after {r.last}: " ++
    "versions of one entity must be in descending system-time order"

end Rising

namespace Ledger

/-- Nothing is superseded. -/
def empty : Ledger := ⟨[⟨.start, .never⟩], .never⟩

/-- The ends of the ranges, from the end of time down to its start. -/
def validTimes (l : Ledger) : List Instant := .never :: l.steps.map (·.lower)

/-- The ceilings of the ranges, from the top down. -/
def ceilings (l : Ledger) : List Instant := l.steps.map (·.ceiling)

/-- The number of ranges. -/
def size (l : Ledger) : Nat := l.steps.length

/-- The position of the range that holds a valid time. -/
def rangeIndex (l : Ledger) (v : Instant) : Nat := l.steps.findIdx fun s => s.lower ≤ v

/-- The lower ends strictly descend, and the last is the start of time. -/
def IsSteps (steps : List Step) : Prop :=
  (steps.map (·.lower)).Pairwise (· > ·) ∧ (steps.getLast?.map (·.lower)) = some .start

/-- Refuses a version newer than the last one recorded. -/
def checkOrder (l : Ledger) (systemFrom : Instant) : Except Rising Unit :=
  if systemFrom > l.last then .error ⟨systemFrom, l.last⟩ else .ok ()

/-- The part of the steps at or above a valid time; a step that reaches across it is cut. -/
def above (v : Instant) : List Step → List Step
  | [] => []
  | s :: rest => if s.lower > v then s :: above v rest else [⟨v, s.ceiling⟩]

/-- The part of the steps below a valid time; a step that reaches across it now ends there, which
needs no change to it. -/
def below (v : Instant) (steps : List Step) : List Step := steps.dropWhile fun s => s.lower ≥ v

/-- The steps after a span is superseded from a system time on. -/
def overwrite (steps : List Step) (systemFrom validFrom validTo : Instant) : List Step :=
  (if validTo = .never then [] else above validTo steps) ++
    ⟨validFrom, systemFrom⟩ :: below validFrom steps

/-- Records that `[validFrom, validTo)` is superseded from `systemFrom` on. An empty span changes
nothing. -/
def record (l : Ledger) (systemFrom validFrom validTo : Instant) : Except Rising Ledger :=
  match l.checkOrder systemFrom with
  | .error e => .error e
  | .ok () =>
    if validFrom ≥ validTo then .ok l
    else .ok ⟨overwrite l.steps systemFrom validFrom validTo, systemFrom⟩

end Ledger

end Bitemporal
