import Bitemporal.CommandLine.Error
import Bitemporal.CommandLine.FactLine
import Bitemporal.CommandLine.Invocation
import Bitemporal.Query.Basic
import Bitemporal.Settings
import Bitemporal.Text.Blank

/-!
# What commands read

## Main definitions

* `Settings.loadFor`: the settings of a command, which must name a directory.
* `CommandInput.openPath`, `CommandInput.lines`: a file of lines, numbered from one.
* `CommandInput.facts`: the facts of numbered lines.
* `QueryText.toQuery`: the query that the options of a scan ask for.
-/

namespace Bitemporal

/-- The settings of a file for a command. -/
def Settings.loadFor (d : Disk) (path : String) : Except CommandError Settings := do
  let text ← (d.readText path).mapError fun f =>
    CommandError.mk .config s!"cannot read config {path}: {f.message}"
  match Json.ofString? text with
  | none => .error ⟨.config, "invalid config JSON: not valid JSON"⟩
  | some v =>
    if (v.field? "data_dir").isNone then .error ⟨.config, "data_dir is required"⟩
    else
      match Settings.ofJson? v with
      | none => .error ⟨.config, "invalid config: not valid settings"⟩
      | some s =>
        let _ ← s.check.mapError .ofError
        return s

namespace CommandInput

/-- Whether a path stands for the standard input. -/
def isStandard (path : String) : Bool :=
  path.startsWith "-" && Disk.components path = ["-"]

/-- Opens a file, or the standard input; a directory can be opened but holds nothing to read. -/
def openPath (d : Disk) (input : Bytes) (path : String) : Except CommandError (Option Bytes) :=
  if isStandard path then .ok (some input)
  else (d.openFile path).mapError fun f => ⟨.io, s!"opening {path}: {f.message}"⟩

/-- The lines that are not blank, with their numbers. -/
def lines : Option Bytes → Except CommandError (List (Nat × String))
  | none => .error (.ofFault .isDirectory)
  | some content =>
    match Bytes.lines content with
    | (_, true) => .error (.ofFault .invalidText)
    | (all, false) =>
      .ok ((all.zipIdx 1).filterMap fun (line, n) =>
        if (Text.trim line).isEmpty then none else some (n, line))

/-- The fact of a numbered line. -/
def fact (number : Nat) (line : String) : Except CommandError Fact :=
  (Fact.parseLine line).mapError fun f => ⟨.input, s!"line {number}: {f.message}"⟩

/-- The facts of numbered lines. -/
def facts (lines : List (Nat × String)) : Except CommandError (List Fact) :=
  lines.mapM fun (n, line) => fact n line

end CommandInput

/-- The selector of keys, none without any. -/
def Selector.ofKeys (keys : List String) : Option Selector :=
  if keys.isEmpty then Option.none else some (.ofList (keys.map EntityId.ofKey))

namespace QueryText

/-- The window of system time that an optional text asks for. -/
def boundsAsOf : Option String → Except Error Bounds
  | none => .ok .unbounded
  | some s => (Instant.parse s).map .asOf

/-- The windows that the two times ask for. -/
def bounds (t : QueryText) : Except Error Bounds := do
  let bounds ← boundsAsOf t.asOf
  match t.validAt with
  | none => return bounds
  | some s => return { bounds with valid := .instant (← Instant.parse s) }

/-- The query in the engine's terms. -/
def toQuery (t : QueryText) : Except Error Query := do
  return {
    bounds := ← t.bounds
    selector := Selector.ofKeys t.ids
    predicates := ← t.filters.mapM Predicate.parse
    projection := if t.columns.isEmpty then none else some t.columns }

end QueryText

end Bitemporal
