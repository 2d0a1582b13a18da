import Bitemporal.CommandLine.Error
import Bitemporal.Journal.Logged
import Bitemporal.Store.Disk

/-!
# Sessions

A command runs in a session: it reads and changes files, reads its standard input, prints lines and
notes what it does. What was printed before a failure stands.

## Main definitions

* `Notice`: something that is written beside the output.
* `Terminal`: files, input and what was written.
* `Session`: a step of a command.
* `Session.within`: a step between the entries of a scope.
-/

namespace Bitemporal

/-- Something that is written beside the output of a command. -/
inductive Notice where
  /-- An entry of the log. -/
  | entry (e : LogEntry)
  /-- The end of a scope, with further facts of it; how long it took is known only outside. -/
  | completed (scope : Scope) (extra : List (String × String))
  /-- A line that no threshold holds back. -/
  | text (line : String)

namespace Notice

/-- The entries at or above a threshold as lines. -/
def ofEntry (threshold : Severity) (e : LogEntry) : List String :=
  if e.severity.passes threshold then [e.line] else []

/-- The lines of a notice, in a run of that many milliseconds. -/
def lines (threshold : Severity) (elapsed : Nat) : Notice → List String
  | entry e => ofEntry threshold e
  | completed scope extra => ofEntry threshold (scope.completed extra elapsed)
  | text line => [line]

end Notice

/-- Files, input and what was written. -/
structure Terminal where
  /-- The files. -/
  disk : Disk
  /-- The standard input. -/
  input : Bytes := []
  /-- The lines printed. -/
  output : List String := []
  /-- What was written beside them. -/
  notices : List Notice := []

/-- A step of a command. -/
abbrev Session (α : Type) := ExceptT CommandFailure (StateM Terminal) α

namespace Session

/-- Prints a line. -/
def print (line : String) : Session Unit :=
  modify fun t => { t with output := t.output ++ [line] }

/-- Prints lines. -/
def printAll (lines : List String) : Session Unit :=
  modify fun t => { t with output := t.output ++ lines }

/-- Writes beside the output. -/
def notify (notices : List Notice) : Session Unit :=
  modify fun t => { t with notices := t.notices ++ notices }

/-- The files. -/
def disk : Session Disk := return (← get).disk

/-- Changes the files. -/
def setDisk (d : Disk) : Session Unit := modify fun t => { t with disk := d }

/-- Refuses. -/
def refuse {α : Type} (e : CommandError) : Session α := throw (.refused e)

/-- An answer or a refusal. -/
def ofExcept {α : Type} : Except CommandError α → Session α
  | .ok a => pure a
  | .error e => refuse e

/-- An answer of the engine or its failure. -/
def ofResult {α : Type} : Except Failure α → Session α
  | .ok a => pure a
  | .error f => throw (.ofFailure f)

/-- A value with its journal: the value and what was counted. -/
def ofLogged {α : Type} (x : Logged α) : Session (α × Metrics) := do
  notify (x.entries.map .entry)
  return (x.value, x.counts)

/-- An answer of the engine with its journal: the answer and what was counted. -/
def ofEngine {α : Type} (x : Engine α) : Session (α × Metrics) := do
  let (result, counts) ← ofLogged x.run
  return (← ofResult result, counts)

/-- Runs the body of a scope, which gives further facts for its end. -/
def within {α : Type} (scope : Scope) (body : Session (List (String × String) × α)) :
    Session α := do
  notify [.entry scope.opened]
  try
    let (extra, a) ← body
    notify [.completed scope extra]
    return a
  catch failure =>
    notify [.entry scope.dropped]
    throw failure

end Session

end Bitemporal
