import Bitemporal.Checked
import Bitemporal.Json.Record

/-!
# Facts as lines

A line of a file of facts is a record that knows no other fields than its own. Times are numbers of
microseconds or text. A version is valid from its system time on unless it says otherwise, its span
must hold some instant, and only a put has content.

## Main definitions

* `FactLine`: the record.
* `FactLine.toFact`: the fact it stands for.
* `Fact.parseLine`: the fact of a line.
* `FactLineFault`: what may be wrong with a line.
-/

namespace Bitemporal

/-- What is wrong with a line. -/
inductive FactLineFault where
  /-- It is not such a record. -/
  | noRecord
  /-- A time is a number that counts no microseconds. -/
  | noInteger (field : String)
  /-- A time is a text that names no instant. -/
  | unreadable (field : String) (reason : Error)
  /-- A time is neither a number nor a text. -/
  | noInstant (field : String)
  /-- The span of valid time is empty. -/
  | emptySpan (validFrom validTo : Instant)
  /-- Something other than a put has content. -/
  | strayContent
deriving DecidableEq, Repr

/-- The fault in words. -/
def FactLineFault.message : FactLineFault → String
  | noRecord => "not a fact"
  | noInteger field => s!"{field} must be an integer of microseconds"
  | unreadable field reason => s!"{field}: {reason.message}"
  | noInstant field => s!"{field} must be a number or a string"
  | emptySpan validFrom validTo => s!"valid_from {validFrom} must be before valid_to {validTo}"
  | strayContent => "only a put carries a doc"

/-- A fact as written on a line. -/
structure FactLine where
  /-- The key of the entity. -/
  id : Json
  /-- The system time. -/
  systemFrom : Json
  /-- The first valid time. -/
  validFrom : Option Json
  /-- The end in valid time. -/
  validTo : Option Json
  /-- What the version does. -/
  kind : Option FactKind
  /-- Its content. -/
  doc : Option Document

namespace FactLine

/-- The names of the fields, in their order. -/
def fieldNames : List String := ["id", "system_from", "valid_from", "valid_to", "op", "doc"]

/-- Lists and objects nest at most this deep inside a field. -/
def room : Nat := Json.maxNesting - 1

/-- The record of a source. -/
def ofSource? (s : Json.Source) : Option FactLine := do
  match ← s.record? fieldNames true with
  | [some id, some systemFrom, validFrom, validTo, kind, doc] =>
    return {
      id := ← id.value? room
      systemFrom := ← systemFrom.value? room
      validFrom := ← Json.Source.optional? (·.value? room) validFrom
      validTo := ← Json.Source.optional? (·.value? room) validTo
      kind := ← Json.Source.optional? (Json.Source.constant? FactKind.ofName?) kind
      doc := ← Json.Source.optional? (fun s => (s.value? room).bind Document.ofJson?) doc }
  | _ => none

/-- The instant that a field names. -/
def instant (field : String) : Json → Except FactLineFault Instant
  | .number n =>
    match n.toSigned? with
    | some i => .ok (Int64.ofInt i)
    | none => .error (.noInteger field)
  | .string s => (Instant.parse s).mapError (.unreadable field)
  | _ => .error (.noInstant field)

/-- The instant that an optional field names. -/
def instantOr (default : Instant) (field : String) : Option Json → Except FactLineFault Instant
  | none => .ok default
  | some v => instant field v

/-- The fact that a record stands for. -/
def toFact (l : FactLine) : Except FactLineFault Fact := do
  let entity := EntityId.ofJsonKey l.id
  let systemFrom ← instant "system_from" l.systemFrom
  let validFrom ← instantOr systemFrom "valid_from" l.validFrom
  let validTo ← instantOr .never "valid_to" l.validTo
  let kind := l.kind.getD .put
  if kind ≠ .erase ∧ validFrom ≥ validTo then .error (.emptySpan validFrom validTo)
  else if kind ≠ .put ∧ l.doc.isSome then .error .strayContent
  else
    match kind with
    | .put => return ⟨entity, validFrom, validTo, systemFrom, .put (l.doc.getD .empty)⟩
    | .delete => return ⟨entity, validFrom, validTo, systemFrom, .delete⟩
    | .erase => return .eraseOf entity systemFrom

end FactLine

/-- The fact of a line. -/
def Fact.parseLine (line : String) : Except FactLineFault Fact :=
  match (Json.Source.ofString? line).bind FactLine.ofSource? with
  | none => .error .noRecord
  | some l => l.toFact

end Bitemporal
