import Bitemporal.Compaction.Basic
import Bitemporal.CommandLine.Input
import Bitemporal.CommandLine.Session
import Bitemporal.Scan.Cursor

/-!
# Running commands

Every command loads the settings first and opens the segments that it names inside a scope, so the
log shows where it began and how it ended.

## Main definitions

* `Session.write`, `Session.scan`, `Session.plan`, `Session.compact`: the commands.
* `Command.run`: one command under a file of settings.
* `Invocation.run`: a whole invocation, with the threshold of its log.
-/

namespace Bitemporal

namespace Session

/-- The line that answers a command that made something. -/
def response (fields : List (String × Json)) : String :=
  (Json.record [("status", .string "ok"), ("data", .record fields)]).compact

/-- Loads the settings. -/
def settings (config : String) : Session Settings := do
  ofExcept (Settings.loadFor (← disk) config)

/-- Opens stored segments. -/
def openAll (settings : Settings) (names : List String) : Session (List Segment) :=
  names.mapM fun name => do
    let (s, _) ← ofEngine (StoredSegment.openNamed settings name (← disk))
    return .stored s

/-- Takes over what a write made of the files. -/
def adopt (x : Logged (Except Failure StoredSegment × Disk)) : Session StoredSegment := do
  let ((result, disk), _) ← ofLogged x
  setDisk disk
  ofResult result

/-- What a command says of a new segment. -/
def madeFields (s : StoredSegment) : List (String × Json) :=
  [("segment", .string s.name), ("pages", .nat s.summaries.length), ("depth", .nat s.trie.depth)]

/-- Stores the facts of a file as a new segment. -/
def write (config segment input : String) : Session Unit := do
  let settings ← settings config
  let (made, rows) ← within ⟨"CLI_WRITE", [("segment", segment)]⟩ do
    let t ← get
    let content ← ofExcept (CommandInput.openPath t.disk t.input input)
    let lines ← ofExcept (CommandInput.lines content)
    let rows ← ofExcept (CommandInput.facts lines)
    let made ← adopt (StoredSegment.write settings segment (Fact.sort rows) t.disk)
    return ([("rows", toString rows.length), ("pages", toString made.summaries.length)],
      (made, rows.length))
  print (response (("rows", .nat rows) :: madeFields made))

/-- Prints the rows that a query sees. -/
def scan (config : String) (segments : List String) (query : QueryText) (metrics : Bool) :
    Session Unit := do
  let settings ← settings config
  within ⟨"CLI_SCAN", [("segments", ",".intercalate segments)]⟩ do
    let opened ← openAll settings segments
    let query ← ofExcept (query.toQuery.mapError .ofError)
    let (cursor, planned) ← ofEngine (Cursor.ofQuery opened query)
    let ((rows, failure), scanned) ← ofLogged (cursor.drain (← disk))
    printAll (rows.map fun r => r.toJson.compact)
    match failure with
    | some f => throw (.ofFailure f)
    | none =>
      if metrics then notify [.text (planned + scanned).toJson.compact]
      return ([("rows", toString rows.length)], ())

/-- The line of a task. -/
def taskLine (segments : List Segment) (t : MergeTask) : String :=
  let page := fun (r : PageRef) => Json.record
    [("segment", .string (Plan.segmentName segments r.segment)), ("page", .nat r.page)]
  (Json.record
    [("path", .array (t.path.map Json.nat)), ("pages", .array (t.pages.map page))]).compact

/-- Prints the tasks of a scan. -/
def plan (config : String) (segments ids : List String) : Session Unit := do
  let settings ← settings config
  within ⟨"CLI_PLAN", [("segments", ",".intercalate segments)]⟩ do
    let opened ← openAll settings segments
    let (tasks, _) ← ofEngine (Plan.ofQuery opened { selector := Selector.ofKeys ids })
    printAll (tasks.map (taskLine opened))
    return ([("tasks", toString tasks.length)], ())

/-- Merges segments into a new one. -/
def compact (config : String) (segments : List String) (output : String) : Session Unit := do
  let settings ← settings config
  let names := ",".intercalate segments
  let made ← within ⟨"CLI_COMPACT", [("segments", names), ("output", output)]⟩ do
    let opened ← openAll settings segments
    let made ← adopt (Compaction.toDisk settings output opened (← disk))
    return ([("pages", toString made.summaries.length)], made)
  print (response (("inputs", .array (segments.map Json.string)) :: madeFields made))

end Session

/-- Runs a command under a file of settings. -/
def Command.run (config : String) : Command → Session Unit
  | write segment input => Session.write config segment input
  | scan segments query metrics => Session.scan config segments query metrics
  | plan segments ids => Session.plan config segments ids
  | compact segments output => Session.compact config segments output

/-- What a run leaves. -/
structure RunReport where
  /-- Whether it failed. -/
  result : Except CommandFailure Unit
  /-- The files after it, the lines printed and the notices. -/
  terminal : Terminal
  /-- The least severity that is logged. -/
  threshold : Severity

/-- The lines beside the output of a run of that many milliseconds. -/
def RunReport.notices (r : RunReport) (elapsed : Nat) : List String :=
  r.terminal.notices.flatMap (Notice.lines r.threshold elapsed)

/-- Runs an invocation. A threshold that is not known is refused before anything else. -/
def Invocation.run (i : Invocation) (t : Terminal) : RunReport :=
  match Severity.ofName? i.logLevel with
  | none =>
    ⟨.error (.refused ⟨.input, s!"unknown log level '{i.logLevel}'"⟩), t, .info⟩
  | some threshold =>
    let (result, t) := (i.command.run i.config).run t
    ⟨result, t, threshold⟩

end Bitemporal
