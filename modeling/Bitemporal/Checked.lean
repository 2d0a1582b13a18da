import Bitemporal.Entity.Key
import Bitemporal.Error
import Bitemporal.Fact.Basic
import Bitemporal.Time.Notation

/-!
# Checked readings

Readings of what callers hand in, with the error of the engine where there is nothing to read.

## Main definitions

* `Instant.parse`: an instant in any of its forms.
* `EntityId.ofBytes`, `EntityId.parse`: an id from sixteen bytes, or from the text of a UUID.
* `FactKind.ofTag`: the kind of a byte.
-/

namespace Bitemporal

/-- The instant of a text. -/
def Instant.parse (s : String) : Except Error Instant :=
  match Instant.parse? s with
  | some t => .ok t
  | none => .error (.malformed s!"unparseable instant: '{s}'")

/-- The id of a byte string. -/
def EntityId.ofBytes (bytes : Bytes) : Except Error EntityId :=
  match EntityId.ofBytes? bytes with
  | some e => .ok e
  | none => .error (.malformed s!"iid must be {byteCount} bytes, got {bytes.length}")

/-- The id of the text of a UUID. -/
def EntityId.parse (s : String) : Except Error EntityId :=
  match EntityId.ofUuid? s with
  | some e => .ok e
  | none => .error (.malformed s!"invalid iid '{s}': not a UUID")

/-- The kind of a byte. -/
def FactKind.ofTag (tag : UInt8) : Except Error FactKind :=
  match FactKind.ofTag? tag with
  | some k => .ok k
  | none => .error (.corruption s!"unknown op tag {tag}")

end Bitemporal
