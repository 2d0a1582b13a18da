/-!
# Severities

How grave an event or an error is, from the detail of a single task to stored data that can no
longer be trusted.
-/

namespace Bitemporal

/-- How grave an event is. -/
inductive Severity where
  | trace
  | info
  | warn
  | error
  | fatal
deriving DecidableEq, Repr, Inhabited

namespace Severity

/-- The rank of a severity. -/
def rank : Severity → Nat
  | trace => 0
  | info => 1
  | warn => 2
  | error => 3
  | fatal => 4

/-- The name in capitals. -/
def name : Severity → String
  | trace => "TRACE"
  | info => "INFO"
  | warn => "WARN"
  | error => "ERROR"
  | fatal => "FATAL"

/-- The severity of a name in any case of its ASCII letters. -/
def ofName? (s : String) : Option Severity :=
  let lower := String.ofList (s.toList.map Char.toLower)
  if lower = "trace" then some trace
  else if lower = "info" then some info
  else if lower = "warn" then some warn
  else if lower = "error" then some error
  else if lower = "fatal" then some fatal
  else none

/-- Whether an event of severity `s` passes a threshold. -/
def passes (s threshold : Severity) : Bool := threshold.rank ≤ s.rank

end Severity

end Bitemporal
