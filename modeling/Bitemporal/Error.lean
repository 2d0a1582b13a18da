import Bitemporal.Journal.Severity

/-!
# Errors

Every error ends the task or the write in which it arises. An error of a page load is as grave as
its reason: a damaged record means that stored data can no longer be trusted.

## Main definitions

* `DiskFault`: what the file system reports.
* `Error`: what the engine reports, with its code, text and severity.
* `Failure`: an error, or a read past the end of what is there.
-/

namespace Bitemporal

/-- What goes wrong with a file. -/
inductive DiskFault where
  | notFound
  | isDirectory
  | notDirectory
  | alreadyExists
  | nameTooLong
  /-- A path holds the character that ends texts for the file system. -/
  | nulInPath
  /-- A position that no file has. -/
  | invalidPosition
  | invalidText
  | shortRead
  /-- Any other fault, in words. -/
  | other (message : String)
deriving DecidableEq, Repr

/-- The fault in words. -/
def DiskFault.message : DiskFault → String
  | notFound => "No such file or directory (os error 2)"
  | isDirectory => "Is a directory (os error 21)"
  | notDirectory => "Not a directory (os error 20)"
  | alreadyExists => "File exists (os error 17)"
  | nameTooLong => "File name too long (os error 36)"
  | nulInPath => "file name contained an unexpected NUL byte"
  | invalidPosition => "Invalid argument (os error 22)"
  | invalidText => "stream did not contain valid UTF-8"
  | shortRead => "failed to fill whole buffer"
  | other message => message

/-- What goes wrong in the engine. -/
inductive Error where
  /-- An order or a range that callers promise does not hold. -/
  | malformed (reason : String)
  /-- A page of a segment cannot be read. -/
  | pageUnavailable (segment : String) (page : Nat) (reason : Error)
  /-- An entity has too many rows for a leaf. -/
  | exhausted (reason : String)
  /-- Stored bytes are not what was written. -/
  | corruption (reason : String)
  /-- A file cannot be used. -/
  | io (context : String) (fault : DiskFault)
  /-- The settings cannot be used. -/
  | config (reason : String)
deriving DecidableEq, Repr

namespace Error

/-- The error in words. -/
def message : Error → String
  | malformed reason => s!"malformed input: {reason}"
  | pageUnavailable segment page reason =>
    s!"page {page} of segment '{segment}' unavailable: {reason.message}"
  | exhausted reason => s!"resource exhausted: {reason}"
  | corruption reason => s!"data corruption: {reason}"
  | io context fault => s!"{context}: {fault.message}"
  | config reason => s!"invalid configuration: {reason}"

/-- The code of the kind of an error. -/
def code : Error → String
  | malformed _ => "CHRONO_MALFORMED_INPUT"
  | pageUnavailable .. => "CHRONO_PAGE_UNAVAILABLE"
  | exhausted _ => "CHRONO_RESOURCE_EXHAUSTED"
  | corruption _ => "CHRONO_DATA_CORRUPTION"
  | io .. => "CHRONO_IO_ERROR"
  | config _ => "CHRONO_CONFIG_ERROR"

/-- Damage is fatal, also under a page load; all else is an error. -/
def severity : Error → Severity
  | corruption _ => .fatal
  | pageUnavailable _ _ reason => reason.severity
  | _ => .error

/-- The text of what caused the error, if it has a cause of its own. -/
def cause? : Error → Option String
  | pageUnavailable _ _ reason => some reason.message
  | io _ fault => some fault.message
  | _ => none

end Error

/-- Why there is no answer. -/
inductive Failure where
  /-- An error of the engine. -/
  | error (e : Error)
  /-- A read past the bits of an id or the rows of a page, of a filter without words, or of more
  bytes than memory holds. -/
  | outOfBounds
deriving DecidableEq, Repr

end Bitemporal
