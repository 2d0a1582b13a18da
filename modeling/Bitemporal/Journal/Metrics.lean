import Bitemporal.Json.Printer

/-!
# Counters

What the engine counts while it works. Counters have 64 bits and wrap.
-/

namespace Bitemporal

/-- The counters of an engine. -/
structure Metrics where
  /-- Pages read for a scan. -/
  pagesLoaded : UInt64 := 0
  /-- Pages that a plan left out. -/
  pagesPruned : UInt64 := 0
  /-- Tasks of plans. -/
  tasksPlanned : UInt64 := 0
  /-- Tasks that were scanned to their end. -/
  tasksScanned : UInt64 := 0
  /-- Rows that scans gave. -/
  rowsEmitted : UInt64 := 0
  /-- Leaves written. -/
  leavesWritten : UInt64 := 0
  /-- Leaves over the row limit. -/
  oversizedLeaves : UInt64 := 0
  /-- Compactions finished. -/
  compactions : UInt64 := 0
deriving DecidableEq, Repr, Inhabited

namespace Metrics

/-- Both counts together. -/
def add (a b : Metrics) : Metrics where
  pagesLoaded := a.pagesLoaded + b.pagesLoaded
  pagesPruned := a.pagesPruned + b.pagesPruned
  tasksPlanned := a.tasksPlanned + b.tasksPlanned
  tasksScanned := a.tasksScanned + b.tasksScanned
  rowsEmitted := a.rowsEmitted + b.rowsEmitted
  leavesWritten := a.leavesWritten + b.leavesWritten
  oversizedLeaves := a.oversizedLeaves + b.oversizedLeaves
  compactions := a.compactions + b.compactions

instance : Add Metrics := ⟨add⟩

/-- The counters as an object, in their own order. -/
def toJson (m : Metrics) : Json :=
  .object
    [ ("pages_loaded", .nat m.pagesLoaded.toNat)
    , ("pages_pruned", .nat m.pagesPruned.toNat)
    , ("tasks_planned", .nat m.tasksPlanned.toNat)
    , ("tasks_scanned", .nat m.tasksScanned.toNat)
    , ("rows_emitted", .nat m.rowsEmitted.toNat)
    , ("leaves_written", .nat m.leavesWritten.toNat)
    , ("oversized_leaves", .nat m.oversizedLeaves.toNat)
    , ("compactions", .nat m.compactions.toNat) ]

end Metrics

end Bitemporal
