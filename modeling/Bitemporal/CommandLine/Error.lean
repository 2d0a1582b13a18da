import Bitemporal.Error

/-!
# Errors of commands

A command fails with one of four kinds of errors. An error of the engine keeps its own code in the
text.

## Main definitions

* `CommandError`: the kind and the text.
* `CommandError.ofError`: what an error of the engine becomes.
* `CommandFailure`: an error, or a read past the end of what is there.
-/

namespace Bitemporal

/-- The kinds of errors of a command. -/
inductive CommandErrorKind where
  /-- The settings cannot be used. -/
  | config
  /-- A file cannot be used. -/
  | io
  /-- A fact or an argument cannot be understood. -/
  | input
  /-- The engine refused. -/
  | engine
deriving DecidableEq, Repr

/-- The code of a kind. -/
def CommandErrorKind.code : CommandErrorKind → String
  | config => "CHRONO_CLI_CONFIG_ERROR"
  | io => "CHRONO_CLI_IO_ERROR"
  | input => "CHRONO_CLI_INVALID_INPUT"
  | engine => "CHRONO_CLI_ENGINE_ERROR"

/-- Why a command failed. -/
structure CommandError where
  /-- The kind. -/
  kind : CommandErrorKind
  /-- The text. -/
  message : String
deriving DecidableEq, Repr

namespace CommandError

/-- The code and the text. -/
def text (e : CommandError) : String := e.kind.code ++ ": " ++ e.message

/-- The kind that an error of the engine becomes. -/
def kindOf : Error → CommandErrorKind
  | .config _ => .config
  | .io .. => .io
  | .malformed _ => .input
  | _ => .engine

/-- An error of the engine. -/
def ofError (e : Error) : CommandError := ⟨kindOf e, e.code ++ ": " ++ e.message⟩

/-- A fault of a file, in its own words. -/
def ofFault (f : DiskFault) : CommandError := ⟨.io, f.message⟩

end CommandError

/-- Why a command has no answer. -/
inductive CommandFailure where
  /-- It was refused. -/
  | refused (e : CommandError)
  /-- A read past the end of what is there. -/
  | outOfBounds
deriving DecidableEq, Repr

/-- What a failure of the engine becomes. -/
def CommandFailure.ofFailure : Failure → CommandFailure
  | .error e => refused (.ofError e)
  | .outOfBounds => outOfBounds

end Bitemporal
