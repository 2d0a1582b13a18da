import Bitemporal.CommandLine.Run

/-!
# The program

Commands run on files that are held as a value. The program looks up what a command may touch,
runs the command, and carries out what it changed.

## Main definitions

* `Program.Observed`: the files that were looked up, and under which paths.
* `Program.observeFor`: the files that an invocation may touch.
* `main`: the program.
-/

namespace Bitemporal.Program

/-- Files that were looked up. -/
structure Observed where
  /-- The files. -/
  disk : Disk := .empty
  /-- The path under which each location was looked up. -/
  paths : List (Location × String) := []

/-- What a path below a directory leads to. A directory is known by the refusal to read it. -/
def find? (path : String) : IO (Option DiskEntry) := do
  try
    return some (.file (← IO.FS.readBinFile path).toList)
  catch
    | .inappropriateType .. => return some .directory
    | _ => return none

/-- Looks up one more location. Nothing lies below a file or below nothing. -/
def lookUp (o : Observed) (location : Location) (path : String) : IO Observed := do
  let paths := (location, path) :: o.paths
  let found ← match o.disk.entry? location.dropLast with
    | some .directory => find? path
    | _ => pure none
  match found with
  | some e => return ⟨o.disk.setEntry location e, paths⟩
  | none => return ⟨o.disk, paths⟩

/-- Looks up a path and the directories above it. -/
def observe (o : Observed) (path : String) : IO Observed := do
  let mut o := o
  let mut location := Disk.origin path
  let mut passed := if path.startsWith "/" then "/" else ""
  for part in Disk.parts path do
    location := Disk.stepTo location part
    passed := passed ++ part
    unless Disk.isOutward location ∨ location = Disk.root do o ← lookUp o location passed
    passed := passed ++ "/"
  return o

/-- The segments that a command names. -/
def segmentsOf : Command → List String
  | .write segment _ => [segment]
  | .scan segments _ _ => segments
  | .plan segments _ => segments
  | .compact segments output => output :: segments

/-- The files of a segment. -/
def filesOf (settings : Settings) (name : String) : List String :=
  [StoredSegment.dataFile, StoredSegment.manifestFile, StoredSegment.draftFile].map
    (Disk.join (settings.segmentDir name))

/-- Looks up the files that an invocation may touch. -/
def observeFor (i : Invocation) : IO Observed := do
  let mut o ← observe {} i.config
  if let .write _ input := i.command then o ← observe o input
  if let .ok settings := Settings.loadFor o.disk i.config then
    for file in (segmentsOf i.command).flatMap (filesOf settings) do o ← observe o file
  return o

/-- Carries out what became of one entry. -/
def store (o : Observed) (location : Location) (e : DiskEntry) : IO Unit := do
  let path := (o.paths.lookup location).getD ("/".intercalate location)
  match e, o.disk.entry? location with
  | .directory, some .directory => return ()
  | .directory, _ => IO.FS.createDirAll path
  | .file new, some (.file old) =>
    unless new = old do IO.FS.writeBinFile path ⟨new.toArray⟩
  | .file new, _ => IO.FS.writeBinFile path ⟨new.toArray⟩

/-- The rest of a stream. -/
partial def readAll (s : IO.FS.Stream) (front : Bytes) : IO Bytes := do
  let more ← s.read 65536
  if more.isEmpty then return front else readAll s (front ++ more.toList)

/-- The standard input, if a command reads it. -/
def inputFor : Command → IO Bytes
  | .write _ input => do
    if CommandInput.isStandard input then readAll (← IO.getStdin) [] else return []
  | _ => return []

/-- Says why a command has no answer. -/
def explain : CommandFailure → String
  | .refused e => e.text
  | .outOfBounds => "read out of bounds"

/-- Runs an invocation and gives its exit code. -/
def run (i : Invocation) : IO UInt32 := do
  let begun ← IO.monoMsNow
  let o ← observeFor i
  let report := i.run { disk := o.disk, input := ← inputFor i.command }
  for (location, e) in report.terminal.disk.entries do store o location e
  report.terminal.output.forM IO.println
  (report.notices ((← IO.monoMsNow) - begun)).forM fun line => IO.eprintln line
  match report.result with
  | .ok () => return 0
  | .error failure =>
    IO.eprintln (explain failure)
    return 1

/-- How the program is used. -/
def usage : List String :=
  [ "bitemporal [--config FILE] [--log-level LEVEL] COMMAND"
  , "  write --segment NAME --input FILE"
  , "  scan --segment NAME.. [--id KEY..] [--valid-at TIME] [--as-of TIME] [--where FILTER..]"
  , "    [--column NAME..] [--metrics]"
  , "  plan --segment NAME.. [--id KEY..]"
  , "  compact --segment NAME.. --output NAME" ]

/-- Answers arguments that lead to no command. -/
def decline : UsageFault → IO UInt32
  | .helpAsked => do
    usage.forM IO.println
    return 0
  | .versionAsked => do
    IO.println "bitemporal 0.1.0"
    return 0
  | _ => do
    usage.forM fun line => IO.eprintln line
    return 2

end Bitemporal.Program

/-- The program. -/
def main (args : List String) : IO UInt32 := do
  match Bitemporal.Invocation.parse args with
  | .error fault => Bitemporal.Program.decline fault
  | .ok i => Bitemporal.Program.run i
