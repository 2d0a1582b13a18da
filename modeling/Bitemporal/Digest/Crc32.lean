import Bitemporal.Text.Bytes

/-!
# CRC-32

The cyclic redundancy check with the reflected polynomial `0xEDB88320`, all ones to start with and
complemented at the end. The remainder is advanced a bit at a time, which makes it linear in the
message.

## Main definitions

* `Crc32.checksum`: the check of a byte string.
-/

namespace Bitemporal.Crc32

/-- The reflected polynomial. -/
def polynomial : BitVec 32 := 0xEDB88320#32

/-- The remainder after one more bit. -/
def shift (r : BitVec 32) : BitVec 32 :=
  if r.getLsbD 0 then (r >>> 1) ^^^ polynomial else r >>> 1

/-- The remainder after `n` more bits. -/
def shifts : Nat → BitVec 32 → BitVec 32
  | 0, r => r
  | n + 1, r => shifts n (shift r)

/-- The remainder after one more byte. -/
def feed (r : BitVec 32) (b : UInt8) : BitVec 32 := shifts 8 (r ^^^ b.toBitVec.setWidth 32)

/-- The check of a byte string. -/
def checksum (bytes : Bytes) : BitVec 32 := ~~~ bytes.foldl feed (BitVec.allOnes 32)

end Bitemporal.Crc32
