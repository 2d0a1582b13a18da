import Bitemporal.CommandLine.Arguments

/-!
# Invocations

What a command line asks for: one of four commands, the file of settings and the threshold of the
log.

## Main definitions

* `Command`: a command with its options.
* `Invocation`: a command with the options of the program.
* `Invocation.parse`: reads an invocation from arguments.
-/

namespace Bitemporal

/-- A query in the words of the command line. -/
structure QueryText where
  /-- Keys of entities; none means all entities. -/
  ids : List String := []
  /-- The valid time asked for. -/
  validAt : Option String := none
  /-- The system time asked for. -/
  asOf : Option String := none
  /-- What documents must satisfy. -/
  filters : List String := []
  /-- The columns to show; none means all columns. -/
  columns : List String := []
deriving DecidableEq, Repr

/-- A command. -/
inductive Command where
  /-- Stores the facts of a file as a new segment. -/
  | write (segment input : String)
  /-- Prints the rows that a query sees, and the counters if asked. -/
  | scan (segments : List String) (query : QueryText) (metrics : Bool)
  /-- Prints the tasks of a scan. -/
  | plan (segments ids : List String)
  /-- Merges segments into a new one. -/
  | compact (segments : List String) (output : String)
deriving DecidableEq, Repr

/-- A command with the options of the program. -/
structure Invocation where
  /-- The file of settings. -/
  config : String
  /-- The name of the least severity that is logged. -/
  logLevel : String
  /-- The command. -/
  command : Command
deriving DecidableEq, Repr

namespace Invocation

/-- The options that may stand before and behind a command. -/
def commonOptions : List OptionSpec := [⟨"config", .path, false⟩, ⟨"log-level", .single, false⟩]

/-- What is known behind the program's name. -/
def programLevel : Level where
  options := commonOptions
  commands := ["write", "scan", "plan", "compact", "help"]
  hasVersion := true

/-- Segments to read, newest first. -/
def sources : OptionSpec := ⟨"segment", .many, true⟩

/-- The options of a query. -/
def queryOptions : List OptionSpec :=
  [⟨"id", .many, false⟩, ⟨"valid-at", .single, false⟩, ⟨"as-of", .single, false⟩,
    ⟨"where", .many, false⟩, ⟨"column", .many, false⟩]

/-- The options of a command. -/
def commandOptions (name : String) : List OptionSpec :=
  if name = "write" then [⟨"segment", .single, true⟩, ⟨"input", .path, true⟩]
  else if name = "scan" then sources :: queryOptions ++ [⟨"metrics", .flag, false⟩]
  else if name = "plan" then [sources, ⟨"id", .many, false⟩]
  else [sources, ⟨"output", .single, true⟩]

/-- The query that options ask for. -/
def queryOf (r : Reading) : QueryText :=
  ⟨r.values "id", r.value? "valid-at", r.value? "as-of", r.values "where", r.values "column"⟩

/-- The command of a name and its options. -/
def commandOf (name : String) (r : Reading) : Command :=
  let text := fun option => (r.value? option).getD ""
  if name = "write" then .write (text "segment") (text "input")
  else if name = "scan" then .scan (r.values "segment") (queryOf r) (r.has "metrics")
  else if name = "plan" then .plan (r.values "segment") (r.values "id")
  else .compact (r.values "segment") (text "output")

/-- What asking for help on something ends in. -/
def helpOn (topic : List String) : UsageFault :=
  match topic with
  | [] => .helpAsked
  | [name] => if programLevel.commands.contains name then .helpAsked else .unknownCommand
  | _ => .unknownCommand

/-- The value of an option that may stand in both places; behind the command it counts more. -/
def common (name default : String) (outer inner : Reading) : String :=
  (inner.value? name <|> outer.value? name).getD default

/-- Reads an invocation. Faults behind the command are found before an unsettled option in front of
it is. -/
def parse (args : List String) : Except UsageFault Invocation := do
  let (outer, command) ← programLevel.read {} args
  match command with
  | none =>
    let outer ← outer.settle
    .error (if outer.given.isEmpty then .nothingGiven else .missingCommand)
  | some ("help", topic) => .error (helpOn topic)
  | some (name, rest) =>
    let inner ← Level.readAll { options := commonOptions ++ commandOptions name } rest
    let outer ← outer.settle
    return {
      config := common "config" "./chronoscan.json" outer inner
      logLevel := common "log-level" "info" outer inner
      command := commandOf name inner }

end Invocation

end Bitemporal
