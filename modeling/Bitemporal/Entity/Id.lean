import Bitemporal.Text.Bytes

/-!
# Entity ids

An entity is known by 128 bits, kept as one number. The order of ids is the order of these numbers,
which is the order of their sixteen bytes.

## Main definitions

* `EntityId`: the id.
* `EntityId.ofBytes?`, `EntityId.toBytes`: sixteen bytes, the highest first.
* `EntityId.text`: 32 hexadecimal digits.
-/

namespace Bitemporal

/-- The id of an entity. -/
structure EntityId where
  /-- Its bits as a number. -/
  bits : BitVec 128
deriving DecidableEq, Repr, Inhabited

namespace EntityId

instance : LT EntityId := ⟨fun a b => a.bits.toNat < b.bits.toNat⟩

instance : LE EntityId := ⟨fun a b => a.bits.toNat ≤ b.bits.toNat⟩

instance (a b : EntityId) : Decidable (a < b) :=
  inferInstanceAs (Decidable (a.bits.toNat < b.bits.toNat))

instance (a b : EntityId) : Decidable (a ≤ b) :=
  inferInstanceAs (Decidable (a.bits.toNat ≤ b.bits.toNat))

/-- The number of bytes of an id. -/
def byteCount : Nat := 16

/-- The id of a number, its higher bits dropped. -/
def ofNat (n : Nat) : EntityId := ⟨BitVec.ofNat 128 n⟩

/-- The number of a byte string, the first byte being the highest. -/
def bigEndianValue (bytes : Bytes) : Nat := bytes.foldl (fun n b => 256 * n + b.toNat) 0

/-- The id of sixteen bytes. -/
def ofBytes? (bytes : Bytes) : Option EntityId :=
  if bytes.length = byteCount then some (ofNat (bigEndianValue bytes)) else none

/-- The id that starts with the given bytes, with zeros behind them. -/
def padded (bytes : Bytes) : EntityId :=
  ofNat (bigEndianValue ((bytes ++ List.replicate byteCount 0).take byteCount))

/-- The sixteen bytes of an id. -/
def toBytes (e : EntityId) : Bytes :=
  (List.range byteCount).reverse.map fun i => UInt8.ofNat (e.bits.toNat / Nat.pow 256 i)

/-- The bytes in hexadecimal. -/
def text (e : EntityId) : String := Bytes.hex e.toBytes

/-- The higher 64 bits. -/
def high (e : EntityId) : UInt64 := UInt64.ofNat (e.bits.toNat / Nat.pow 2 64)

/-- The lower 64 bits. -/
def low (e : EntityId) : UInt64 := UInt64.ofNat e.bits.toNat

end EntityId

end Bitemporal
