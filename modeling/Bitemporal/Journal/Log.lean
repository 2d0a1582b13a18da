import Bitemporal.Journal.Severity
import Bitemporal.Json.Printer

/-!
# Log entries

An entry is written as one line of JSON: the event, its severity, and its fields sorted by name.

## Main definitions

* `LogEntry`, `LogEntry.line`: an entry and its line.
* `Event`: the events of the engine, with their names and severities.
* `Scope`: the entries at the beginning and the end of a long operation.
-/

namespace Bitemporal

/-- Something that was observed. -/
structure LogEntry where
  /-- How grave it is. -/
  severity : Severity
  /-- The name of the event. -/
  event : String
  /-- Further facts of it. -/
  fields : List (String × String)
deriving Repr

/-- The entry on one line, without the line end. Fields of one name keep their order. -/
def LogEntry.line (e : LogEntry) : String :=
  let sorted := e.fields.mergeSort fun a b => decide (a.1 ≤ b.1)
  let rest := sorted.map fun (k, v) => "," ++ Json.quote k ++ ":" ++ Json.quote v
  "\x7b\"event\":" ++ Json.quote e.event ++ ",\"severity\":\"" ++ e.severity.name ++ "\"" ++
    String.join rest ++ "\x7d"

/-- What the engine reports. -/
inductive Event where
  | segmentWriteBegin
  | segmentWriteComplete
  | oversizedLeaf
  | segmentOpened
  | pageLoadFailed
  | pagePruned
  | mergePlanBuilt
  | scanTaskComplete
  | malformedInput
  | compactionBegin
  | compactionComplete
deriving DecidableEq, Repr

namespace Event

/-- The name of an event. -/
def name : Event → String
  | segmentWriteBegin => "SEGMENT_WRITE_BEGIN"
  | segmentWriteComplete => "SEGMENT_WRITE_COMPLETE"
  | oversizedLeaf => "OVERSIZED_LEAF"
  | segmentOpened => "SEGMENT_OPENED"
  | pageLoadFailed => "PAGE_LOAD_FAILED"
  | pagePruned => "PAGE_PRUNED"
  | mergePlanBuilt => "MERGE_PLAN_BUILT"
  | scanTaskComplete => "SCAN_TASK_COMPLETE"
  | malformedInput => "MALFORMED_INPUT"
  | compactionBegin => "COMPACTION_BEGIN"
  | compactionComplete => "COMPACTION_COMPLETE"

/-- The severity of an event. -/
def severity : Event → Severity
  | pagePruned | scanTaskComplete => .trace
  | oversizedLeaf => .warn
  | pageLoadFailed | malformedInput => .error
  | _ => .info

/-- The entry of an event. -/
def entry (e : Event) (fields : List (String × String)) : LogEntry := ⟨e.severity, e.name, fields⟩

end Event

/-- A long operation whose beginning and end are logged. -/
structure Scope where
  /-- The name of the operation. -/
  name : String
  /-- What is logged with its beginning and its end. -/
  fields : List (String × String)
deriving Repr

namespace Scope

/-- The operation begins. -/
def opened (s : Scope) : LogEntry := ⟨.info, s.name ++ "_BEGIN", s.fields⟩

/-- It ended well, after that many milliseconds. -/
def completed (s : Scope) (extra : List (String × String)) (elapsed : Nat) : LogEntry :=
  ⟨.info, s.name ++ "_COMPLETE", s.fields ++ extra ++ [("elapsed_ms", toString elapsed)]⟩

/-- It failed. -/
def failed (s : Scope) (reason : String) : LogEntry :=
  ⟨.error, s.name ++ "_FAILED", s.fields ++ [("reason", reason)]⟩

/-- It was left without an end. -/
def dropped (s : Scope) : LogEntry :=
  ⟨.error, s.name ++ "_ERROR", [("reason", "scope dropped without completion")]⟩

end Scope

end Bitemporal
